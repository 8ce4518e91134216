/-!
# Rulebook — Text — Quoted

String literals of the rule language: between double quotes, with a backslash before a quote and a
backslash, `\n` for a line feed and `\t` for a tab; every other character stands for itself.
-/

namespace Rulebook.Text

/-- How one character is written inside a string literal. -/
def quoteChar (c : Char) : List Char :=
  if c = '"' then ['\\', '"']
  else if c = '\\' then ['\\', '\\']
  else if c = '\n' then ['\\', 'n']
  else if c = '\t' then ['\\', 't']
  else [c]

/-- The string literal of a text. -/
def quote (cs : List Char) : List Char := '"' :: (cs.flatMap quoteChar ++ ['"'])

/-- What the two characters of an escape stand for; an unknown escape stands for itself. -/
def unescape (c : Char) : List Char :=
  if c = '"' then ['"']
  else if c = '\\' then ['\\']
  else if c = 'n' then ['\n']
  else if c = 't' then ['\t']
  else ['\\', c]

end Rulebook.Text
