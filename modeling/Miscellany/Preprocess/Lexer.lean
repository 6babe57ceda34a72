import Miscellany.Library.InputStream
import Miscellany.Library.Regex
import Miscellany.Slist.Basic

/-!
# The scanner of C

`c99.l` with the meaning that flex gives to it: at each position the rule with the longest match is
taken, and of several the first. The input is bytes; a class such as `[^\n]` has all of the 256 but
the newline. `yylineno` is taken not to overflow.
-/

namespace Miscellany

namespace C99

open Regex

open InputStream (lf)

abbrev Byte := UInt8

def char (c : Char) : Byte := UInt8.ofNat c.toNat

def chars (s : String) : List Byte := s.toList.map char

/-- A quoted text. -/
def lit (s : String) : Regex Byte := word (chars s)

/-- `[...]` with single characters. -/
def among (s : String) : Regex Byte := symbols fun b => (chars s).contains b

/-- `[^...]` with single characters. -/
def except (s : String) : Regex Byte := symbols fun b => !(chars s).contains b

/-- `[a-b]` -/
def range (a b : Char) : Regex Byte := symbols fun c => char a ≤ c && c ≤ char b

/-- The juxtaposition of expressions. -/
def cats (rs : List (Regex Byte)) : Regex Byte := rs.foldr cat epsilon

/-! ### The definitions -/

def D : Regex Byte := range '0' '9'

def L : Regex Byte := oneOf [range 'a' 'z', range 'A' 'Z', among "_"]

def H : Regex Byte := oneOf [range 'a' 'f', range 'A' 'F', range '0' '9']

def E : Regex Byte := cats [among "Ee", opt (among "+-"), plus D]

def P : Regex Byte := cats [among "Pp", opt (among "+-"), plus D]

def FS : Regex Byte := oneOf [lit "f", lit "F", lit "l", lit "L"]

def IS : Regex Byte :=
  oneOf [among "uU",
    cat (opt (among "uU")) (oneOf [lit "l", lit "L", lit "ll", lit "LL"]),
    cat (oneOf [lit "l", lit "L", lit "ll", lit "LL"]) (among "uU")]

/-- `.` -/
def dot : Regex Byte := except "\n"

/-! ### The rules -/

inductive Action where
  /-- `comment();` -/
  | comment
  /-- Nothing. -/
  | skip
  /-- `add_node(&token_list, new_node(new_token(yytext, yylineno)));` -/
  | add
deriving DecidableEq

/-- The rules before the tokens. -/
def comments : List (Regex Byte × Action) :=
  [(lit "/*", .comment), (cat (lit "//") (star (except "\n")), .skip)]

def keywords : List String :=
  ["auto", "_Bool", "break", "case", "char", "_Complex", "const", "continue", "default", "do",
    "double", "else", "enum", "extern", "float", "for", "goto", "if", "_Imaginary", "inline", "int",
    "long", "register", "restrict", "return", "short", "signed", "sizeof", "static", "struct",
    "switch", "typedef", "union", "unsigned", "void", "volatile", "while"]

def identifier : Regex Byte := cat L (star (alt L D))

/-- Numbers, and what stands between single quotes, in the order of the rules. -/
def constants : List (Regex Byte) :=
  [cats [lit "0", among "xX", plus H, opt IS],
    cats [lit "0", star (range '0' '7'), opt IS],
    cats [range '1' '9', star D, opt IS],
    cats [opt (lit "L"), lit "'", plus (alt (cat (lit "\\") dot) (except "\\'\n")), lit "'"],
    cats [plus D, E, opt FS],
    cats [star D, lit ".", plus D, opt E, opt FS],
    cats [plus D, lit ".", star D, opt E, opt FS],
    cats [lit "0", among "xX", plus H, P, opt FS],
    cats [lit "0", among "xX", star H, lit ".", plus H, opt P, opt FS],
    cats [lit "0", among "xX", plus H, lit ".", star H, opt P, opt FS]]

def stringLiteral : Regex Byte :=
  cats [opt (lit "L"), lit "\"", star (alt (cat (lit "\\") dot) (except "\\\"\n")), lit "\""]

def operators : List (Regex Byte) :=
  ["...", ">>=", "<<=", "+=", "-=", "*=", "/=", "%=", "&=", "^=", "|=", ">>", "<<", "++", "--",
    "->", "&&", "||", "<=", ">=", "==", "!=", ";"].map lit ++
  [alt (lit "\x7b") (lit "<%"), alt (lit "\x7d") (lit "%>")] ++
  [",", ":", "=", "(", ")"].map lit ++
  [alt (lit "[") (lit "<:"), alt (lit "]") (lit ":>")] ++
  [".", "&", "!", "~", "-", "+", "*", "/", "%", "<", ">", "^", "|", "?"].map lit

/-- The rules whose action adds a token. -/
def tokenRules : List (Regex Byte) :=
  keywords.map lit ++ identifier :: constants ++ stringLiteral :: operators

def whitespace : Regex Byte := among " \t\x0b\n\x0c"

def rules : List (Regex Byte × Action) :=
  comments ++ tokenRules.map (·, .add) ++ [(whitespace, .skip), (dot, .skip)]

def regexes : List (Regex Byte) := rules.map Prod.fst

/-! ### The scanner -/

structure Token where
  lineno : ℕ
  word : List Byte
deriving DecidableEq

/-- `new_token`: `strlen` and `strcpy` stop at a zero. -/
def newToken (yytext : List Byte) (yylineno : ℕ) : Token := ⟨yylineno, yytext.takeWhile (· != 0)⟩

structure Scanner where
  rest : List Byte
  yylineno : ℕ
  tokenList : Slist Token
deriving DecidableEq

namespace Scanner

/-- The state before `yylex`. -/
def start (input : List Byte) : Scanner := ⟨input, 1, .empty⟩

/-- `input`: the next byte, or zero at the end of the file. -/
def input (s : Scanner) : Byte × Scanner :=
  match s.rest with
  | [] => (0, s)
  | c :: rest => (c, { s with rest := rest, yylineno := s.yylineno + if c = lf then 1 else 0 })

/-- The loop of `comment`; `fuel` turns are enough for as many bytes. -/
def commentLoop : ℕ → Byte → Scanner → Scanner
  | 0, _, s => s
  | fuel + 1, prev, s =>
      let r := s.input
      if r.1 = 0 then r.2
      else if r.1 = char '/' ∧ prev = char '*' then r.2
      else commentLoop fuel r.1 r.2

def comment (s : Scanner) : Scanner := commentLoop s.rest.length 0 s

/-- The action of a rule for the text that it matches. -/
def act (s : Scanner) (yytext : List Byte) : Action → Option Scanner
  | .comment => some s.comment
  | .skip => some s
  | .add =>
      (s.tokenList.add (newToken yytext s.yylineno)).map fun l => { s with tokenList := l }

/-- One turn of `yylex`; `none` is a scanner that jams, as no rule matches. -/
def turn (s : Scanner) : Option Scanner :=
  (longest regexes s.rest).bind fun r =>
    let yytext := s.rest.take r.1
    rules[r.2]?.bind fun rule =>
      act { s with rest := s.rest.drop r.1, yylineno := s.yylineno + yytext.count lf } yytext rule.2

/-- `yylex`, of at most `fuel` turns. -/
def yylex : ℕ → Scanner → Option Scanner
  | 0, s => if s.rest = [] then some s else none
  | fuel + 1, s => if s.rest = [] then some s else s.turn.bind (yylex fuel)

end Scanner

/-- `main`: the tokens that it prints, and the size. -/
def main (input : List Byte) : Option (List Token × ℕ) :=
  (Scanner.yylex input.length (.start input)).bind fun s =>
    s.tokenList.print.map (·, s.tokenList.size)

end C99

end Miscellany
