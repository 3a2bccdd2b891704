import Gofusion.Utils.Text

/-!
# The tokens of the SQL parser

`common/utils/sqlparser/token.go`.  `Token.string` is the table `tokens`, and `lookup` reads it
backwards for the keywords, with the case of the identifier ignored.  `Token.precedence` drives the
precedence climbing of the parser.
-/

namespace Gofusion.Sqlparser

inductive Token
  | ILLEGAL | EOF | COMMENT | SPACE
  | IDENT | QIDENT | STRING | BLOB | FLOAT | INTEGER | MLCOMMENT | NULL | TRUE | FALSE | BIND
  | SEMI | LP | RP | COMMA | NE | EQ | LE | LG | LT | GT | GE | BITAND | BITOR | BITNOT
  | LSHIFT | RSHIFT | PLUS | MINUS | STAR | SLASH | REM | CONCAT | DOT
  | ABORT | ACTION | ADD | AFTER | AGG_COLUMN | AGG_FUNCTION | ALL | ALTER | ANALYZE | AND | AS
  | ASC | ASTERISK | ATTACH | AUTOINCREMENT | BEFORE | BEGIN | BETWEEN | BY | CASCADE | CASE
  | CAST | CHECK | COLUMN | COLUMNKW | COMMIT | CONFLICT | CONSTRAINT | CREATE | CROSS
  | CTIME_KW | CURRENT | CURRENT_TIME | CURRENT_DATE | CURRENT_TIMESTAMP | DATABASE | DEFAULT
  | DEFERRABLE | DEFERRED | DELETE | DESC | DETACH | DISTINCT | DO | DROP | EACH | ELSE | END
  | ESCAPE | EXCEPT | EXCLUDE | EXCLUSIVE | EXISTS | EXPLAIN | FAIL | FILTER | FIRST
  | FOLLOWING | FOR | FOREIGN | FROM | FUNCTION | GLOB | GROUP | GROUPS | HAVING | IF
  | IF_NULL_ROW | IGNORE | IMMEDIATE | IN | INDEX | INDEXED | INITIALLY | INNER | INSERT
  | INSTEAD | INTERSECT | INTO | IS | ISNOT | ISNULL | JOIN | KEY | LAST | LEFT | LIKE | LIMIT
  | MATCH | NATURAL | NO | NOT | NOTBETWEEN | NOTEXISTS | NOTGLOB | NOTHING | NOTIN | NOTLIKE
  | NOTMATCH | NOTNULL | NOTREGEXP | NULLS | OF | OFFSET | ON | ONLY | OR | ORDER | OTHERS
  | OUTER | OVER | OVERRIDING | PARTITION | PLAN | PRAGMA | PRECEDING | PRIMARY | QUERY | RAISE
  | RANGE | RECURSIVE | REFERENCES | REGEXP | REGISTER | REINDEX | RELEASE | RENAME | RESTRICT
  | RETURNING | ROLLBACK | ROW | ROWS | SELECT | SELECT_COLUMN | SET | SPAN | SYSTEM | TABLE
  | TEMP | THEN | TIES | TO | TRANSACTION | TRIGGER | TRUTH | UNBOUNDED | UNION | UNIQUE
  | UPDATE | USER | USING | VACUUM | VALUE | VALUES | VARIABLE | VECTOR | VIEW | VIRTUAL | WHEN
  | WHERE | WINDOW | WITH | WITHOUT | FETCH | NEXT
  | ANY
deriving DecidableEq, Repr

namespace Token

/-- The table `tokens`.  `ANY` has no entry there and prints as its number. -/
def string : Token → Text
  | .ILLEGAL => ['I', 'L', 'L', 'E', 'G', 'A', 'L']
  | .EOF => ['E', 'O', 'F']
  | .COMMENT => ['C', 'O', 'M', 'M', 'E', 'N', 'T']
  | .SPACE => ['S', 'P', 'A', 'C', 'E']
  | .IDENT => ['I', 'D', 'E', 'N', 'T']
  | .QIDENT => ['Q', 'I', 'D', 'E', 'N', 'T']
  | .STRING => ['S', 'T', 'R', 'I', 'N', 'G']
  | .BLOB => ['B', 'L', 'O', 'B']
  | .FLOAT => ['F', 'L', 'O', 'A', 'T']
  | .INTEGER => ['I', 'N', 'T', 'E', 'G', 'E', 'R']
  | .MLCOMMENT => ['M', 'L', 'C', 'O', 'M', 'M', 'E', 'N', 'T']
  | .NULL => ['N', 'U', 'L', 'L']
  | .TRUE => ['T', 'R', 'U', 'E']
  | .FALSE => ['F', 'A', 'L', 'S', 'E']
  | .BIND => ['B', 'I', 'N', 'D']
  | .SEMI => [';']
  | .LP => ['(']
  | .RP => [')']
  | .COMMA => [',']
  | .NE => ['!', '=']
  | .EQ => ['=']
  | .LE => ['<', '=']
  | .LG => ['<', '>']
  | .LT => ['<']
  | .GT => ['>']
  | .GE => ['>', '=']
  | .BITAND => ['&']
  | .BITOR => ['|']
  | .BITNOT => ['!']
  | .LSHIFT => ['<', '<']
  | .RSHIFT => ['>', '>']
  | .PLUS => ['+']
  | .MINUS => ['-']
  | .STAR => ['*']
  | .SLASH => ['/']
  | .REM => ['%']
  | .CONCAT => ['|', '|']
  | .DOT => ['.']
  | .ABORT => ['A', 'B', 'O', 'R', 'T']
  | .ACTION => ['A', 'C', 'T', 'I', 'O', 'N']
  | .ADD => ['A', 'D', 'D']
  | .AFTER => ['A', 'F', 'T', 'E', 'R']
  | .AGG_COLUMN => ['A', 'G', 'G', '_', 'C', 'O', 'L', 'U', 'M', 'N']
  | .AGG_FUNCTION => ['A', 'G', 'G', '_', 'F', 'U', 'N', 'C', 'T', 'I', 'O', 'N']
  | .ALL => ['A', 'L', 'L']
  | .ALTER => ['A', 'L', 'T', 'E', 'R']
  | .ANALYZE => ['A', 'N', 'A', 'L', 'Y', 'Z', 'E']
  | .AND => ['A', 'N', 'D']
  | .AS => ['A', 'S']
  | .ASC => ['A', 'S', 'C']
  | .ASTERISK => ['A', 'S', 'T', 'E', 'R', 'I', 'S', 'K']
  | .ATTACH => ['A', 'T', 'T', 'A', 'C', 'H']
  | .AUTOINCREMENT => ['A', 'U', 'T', 'O', 'I', 'N', 'C', 'R', 'E', 'M', 'E', 'N', 'T']
  | .BEFORE => ['B', 'E', 'F', 'O', 'R', 'E']
  | .BEGIN => ['B', 'E', 'G', 'I', 'N']
  | .BETWEEN => ['B', 'E', 'T', 'W', 'E', 'E', 'N']
  | .BY => ['B', 'Y']
  | .CASCADE => ['C', 'A', 'S', 'C', 'A', 'D', 'E']
  | .CASE => ['C', 'A', 'S', 'E']
  | .CAST => ['C', 'A', 'S', 'T']
  | .CHECK => ['C', 'H', 'E', 'C', 'K']
  | .COLUMN => ['C', 'O', 'L', 'U', 'M', 'N']
  | .COLUMNKW => ['C', 'O', 'L', 'U', 'M', 'N', 'K', 'W']
  | .COMMIT => ['C', 'O', 'M', 'M', 'I', 'T']
  | .CONFLICT => ['C', 'O', 'N', 'F', 'L', 'I', 'C', 'T']
  | .CONSTRAINT => ['C', 'O', 'N', 'S', 'T', 'R', 'A', 'I', 'N', 'T']
  | .CREATE => ['C', 'R', 'E', 'A', 'T', 'E']
  | .CROSS => ['C', 'R', 'O', 'S', 'S']
  | .CTIME_KW => ['C', 'T', 'I', 'M', 'E', '_', 'K', 'W']
  | .CURRENT => ['C', 'U', 'R', 'R', 'E', 'N', 'T']
  | .CURRENT_TIME => ['C', 'U', 'R', 'R', 'E', 'N', 'T', '_', 'T', 'I', 'M', 'E']
  | .CURRENT_DATE => ['C', 'U', 'R', 'R', 'E', 'N', 'T', '_', 'D', 'A', 'T', 'E']
  | .CURRENT_TIMESTAMP => ['C', 'U', 'R', 'R', 'E', 'N', 'T', '_', 'T', 'I', 'M', 'E', 'S', 'T', 'A', 'M', 'P']
  | .DATABASE => ['D', 'A', 'T', 'A', 'B', 'A', 'S', 'E']
  | .DEFAULT => ['D', 'E', 'F', 'A', 'U', 'L', 'T']
  | .DEFERRABLE => ['D', 'E', 'F', 'E', 'R', 'R', 'A', 'B', 'L', 'E']
  | .DEFERRED => ['D', 'E', 'F', 'E', 'R', 'R', 'E', 'D']
  | .DELETE => ['D', 'E', 'L', 'E', 'T', 'E']
  | .DESC => ['D', 'E', 'S', 'C']
  | .DETACH => ['D', 'E', 'T', 'A', 'C', 'H']
  | .DISTINCT => ['D', 'I', 'S', 'T', 'I', 'N', 'C', 'T']
  | .DO => ['D', 'O']
  | .DROP => ['D', 'R', 'O', 'P']
  | .EACH => ['E', 'A', 'C', 'H']
  | .ELSE => ['E', 'L', 'S', 'E']
  | .END => ['E', 'N', 'D']
  | .ESCAPE => ['E', 'S', 'C', 'A', 'P', 'E']
  | .EXCEPT => ['E', 'X', 'C', 'E', 'P', 'T']
  | .EXCLUDE => ['E', 'X', 'C', 'L', 'U', 'D', 'E']
  | .EXCLUSIVE => ['E', 'X', 'C', 'L', 'U', 'S', 'I', 'V', 'E']
  | .EXISTS => ['E', 'X', 'I', 'S', 'T', 'S']
  | .EXPLAIN => ['E', 'X', 'P', 'L', 'A', 'I', 'N']
  | .FAIL => ['F', 'A', 'I', 'L']
  | .FILTER => ['F', 'I', 'L', 'T', 'E', 'R']
  | .FIRST => ['F', 'I', 'R', 'S', 'T']
  | .FOLLOWING => ['F', 'O', 'L', 'L', 'O', 'W', 'I', 'N', 'G']
  | .FOR => ['F', 'O', 'R']
  | .FOREIGN => ['F', 'O', 'R', 'E', 'I', 'G', 'N']
  | .FROM => ['F', 'R', 'O', 'M']
  | .FUNCTION => ['F', 'U', 'N', 'C', 'T', 'I', 'O', 'N']
  | .GLOB => ['G', 'L', 'O', 'B']
  | .GROUP => ['G', 'R', 'O', 'U', 'P']
  | .GROUPS => ['G', 'R', 'O', 'U', 'P', 'S']
  | .HAVING => ['H', 'A', 'V', 'I', 'N', 'G']
  | .IF => ['I', 'F']
  | .IF_NULL_ROW => ['I', 'F', '_', 'N', 'U', 'L', 'L', '_', 'R', 'O', 'W']
  | .IGNORE => ['I', 'G', 'N', 'O', 'R', 'E']
  | .IMMEDIATE => ['I', 'M', 'M', 'E', 'D', 'I', 'A', 'T', 'E']
  | .IN => ['I', 'N']
  | .INDEX => ['I', 'N', 'D', 'E', 'X']
  | .INDEXED => ['I', 'N', 'D', 'E', 'X', 'E', 'D']
  | .INITIALLY => ['I', 'N', 'I', 'T', 'I', 'A', 'L', 'L', 'Y']
  | .INNER => ['I', 'N', 'N', 'E', 'R']
  | .INSERT => ['I', 'N', 'S', 'E', 'R', 'T']
  | .INSTEAD => ['I', 'N', 'S', 'T', 'E', 'A', 'D']
  | .INTERSECT => ['I', 'N', 'T', 'E', 'R', 'S', 'E', 'C', 'T']
  | .INTO => ['I', 'N', 'T', 'O']
  | .IS => ['I', 'S']
  | .ISNOT => ['I', 'S', 'N', 'O', 'T']
  | .ISNULL => ['I', 'S', 'N', 'U', 'L', 'L']
  | .JOIN => ['J', 'O', 'I', 'N']
  | .KEY => ['K', 'E', 'Y']
  | .LAST => ['L', 'A', 'S', 'T']
  | .LEFT => ['L', 'E', 'F', 'T']
  | .LIKE => ['L', 'I', 'K', 'E']
  | .LIMIT => ['L', 'I', 'M', 'I', 'T']
  | .MATCH => ['M', 'A', 'T', 'C', 'H']
  | .NATURAL => ['N', 'A', 'T', 'U', 'R', 'A', 'L']
  | .NO => ['N', 'O']
  | .NOT => ['N', 'O', 'T']
  | .NOTBETWEEN => ['N', 'O', 'T', 'B', 'E', 'T', 'W', 'E', 'E', 'N']
  | .NOTEXISTS => ['N', 'O', 'T', 'E', 'X', 'I', 'S', 'T', 'S']
  | .NOTGLOB => ['N', 'O', 'T', 'G', 'L', 'O', 'B']
  | .NOTHING => ['N', 'O', 'T', 'H', 'I', 'N', 'G']
  | .NOTIN => ['N', 'O', 'T', 'I', 'N']
  | .NOTLIKE => ['N', 'O', 'T', 'L', 'I', 'K', 'E']
  | .NOTMATCH => ['N', 'O', 'T', 'M', 'A', 'T', 'C', 'H']
  | .NOTNULL => ['N', 'O', 'T', 'N', 'U', 'L', 'L']
  | .NOTREGEXP => ['N', 'O', 'T', 'R', 'E', 'G', 'E', 'X', 'P']
  | .NULLS => ['N', 'U', 'L', 'L', 'S']
  | .OF => ['O', 'F']
  | .OFFSET => ['O', 'F', 'F', 'S', 'E', 'T']
  | .ON => ['O', 'N']
  | .ONLY => ['O', 'N', 'L', 'Y']
  | .OR => ['O', 'R']
  | .ORDER => ['O', 'R', 'D', 'E', 'R']
  | .OTHERS => ['O', 'T', 'H', 'E', 'R', 'S']
  | .OUTER => ['O', 'U', 'T', 'E', 'R']
  | .OVER => ['O', 'V', 'E', 'R']
  | .OVERRIDING => ['O', 'V', 'E', 'R', 'R', 'I', 'D', 'I', 'N', 'G']
  | .PARTITION => ['P', 'A', 'R', 'T', 'I', 'T', 'I', 'O', 'N']
  | .PLAN => ['P', 'L', 'A', 'N']
  | .PRAGMA => ['P', 'R', 'A', 'G', 'M', 'A']
  | .PRECEDING => ['P', 'R', 'E', 'C', 'E', 'D', 'I', 'N', 'G']
  | .PRIMARY => ['P', 'R', 'I', 'M', 'A', 'R', 'Y']
  | .QUERY => ['Q', 'U', 'E', 'R', 'Y']
  | .RAISE => ['R', 'A', 'I', 'S', 'E']
  | .RANGE => ['R', 'A', 'N', 'G', 'E']
  | .RECURSIVE => ['R', 'E', 'C', 'U', 'R', 'S', 'I', 'V', 'E']
  | .REFERENCES => ['R', 'E', 'F', 'E', 'R', 'E', 'N', 'C', 'E', 'S']
  | .REGEXP => ['R', 'E', 'G', 'E', 'X', 'P']
  | .REGISTER => ['R', 'E', 'G', 'I', 'S', 'T', 'E', 'R']
  | .REINDEX => ['R', 'E', 'I', 'N', 'D', 'E', 'X']
  | .RELEASE => ['R', 'E', 'L', 'E', 'A', 'S', 'E']
  | .RENAME => ['R', 'E', 'N', 'A', 'M', 'E']
  | .RESTRICT => ['R', 'E', 'S', 'T', 'R', 'I', 'C', 'T']
  | .RETURNING => ['R', 'E', 'T', 'U', 'R', 'N', 'I', 'N', 'G']
  | .ROLLBACK => ['R', 'O', 'L', 'L', 'B', 'A', 'C', 'K']
  | .ROW => ['R', 'O', 'W']
  | .ROWS => ['R', 'O', 'W', 'S']
  | .SELECT => ['S', 'E', 'L', 'E', 'C', 'T']
  | .SELECT_COLUMN => ['S', 'E', 'L', 'E', 'C', 'T', '_', 'C', 'O', 'L', 'U', 'M', 'N']
  | .SET => ['S', 'E', 'T']
  | .SPAN => ['S', 'P', 'A', 'N']
  | .SYSTEM => ['S', 'Y', 'S', 'T', 'E', 'M']
  | .TABLE => ['T', 'A', 'B', 'L', 'E']
  | .TEMP => ['T', 'E', 'M', 'P']
  | .THEN => ['T', 'H', 'E', 'N']
  | .TIES => ['T', 'I', 'E', 'S']
  | .TO => ['T', 'O']
  | .TRANSACTION => ['T', 'R', 'A', 'N', 'S', 'A', 'C', 'T', 'I', 'O', 'N']
  | .TRIGGER => ['T', 'R', 'I', 'G', 'G', 'E', 'R']
  | .TRUTH => ['T', 'R', 'U', 'T', 'H']
  | .UNBOUNDED => ['U', 'N', 'B', 'O', 'U', 'N', 'D', 'E', 'D']
  | .UNION => ['U', 'N', 'I', 'O', 'N']
  | .UNIQUE => ['U', 'N', 'I', 'Q', 'U', 'E']
  | .UPDATE => ['U', 'P', 'D', 'A', 'T', 'E']
  | .USER => ['U', 'S', 'E', 'R']
  | .USING => ['U', 'S', 'I', 'N', 'G']
  | .VACUUM => ['V', 'A', 'C', 'U', 'U', 'M']
  | .VALUE => ['V', 'A', 'L', 'U', 'E']
  | .VALUES => ['V', 'A', 'L', 'U', 'E', 'S']
  | .VARIABLE => ['V', 'A', 'R', 'I', 'A', 'B', 'L', 'E']
  | .VECTOR => ['V', 'E', 'C', 'T', 'O', 'R']
  | .VIEW => ['V', 'I', 'E', 'W']
  | .VIRTUAL => ['V', 'I', 'R', 'T', 'U', 'A', 'L']
  | .WHEN => ['W', 'H', 'E', 'N']
  | .WHERE => ['W', 'H', 'E', 'R', 'E']
  | .WINDOW => ['W', 'I', 'N', 'D', 'O', 'W']
  | .WITH => ['W', 'I', 'T', 'H']
  | .WITHOUT => ['W', 'I', 'T', 'H', 'O', 'U', 'T']
  | .FETCH => ['F', 'E', 'T', 'C', 'H']
  | .NEXT => ['N', 'E', 'X', 'T']
  | .ANY => ['t', 'o', 'k', 'e', 'n', '(', '2', '0', '9', ')']

/-- The keywords, and the three literals that are looked up like keywords. -/
def keywords : List Token :=
  [.ABORT, .ACTION, .ADD, .AFTER, .AGG_COLUMN, .AGG_FUNCTION, .ALL, .ALTER, .ANALYZE, .AND,
   .AS, .ASC, .ASTERISK, .ATTACH, .AUTOINCREMENT, .BEFORE, .BEGIN, .BETWEEN, .BY, .CASCADE,
   .CASE, .CAST, .CHECK, .COLUMN, .COLUMNKW, .COMMIT, .CONFLICT, .CONSTRAINT, .CREATE, .CROSS,
   .CTIME_KW, .CURRENT, .CURRENT_TIME, .CURRENT_DATE, .CURRENT_TIMESTAMP, .DATABASE, .DEFAULT,
   .DEFERRABLE, .DEFERRED, .DELETE, .DESC, .DETACH, .DISTINCT, .DO, .DROP, .EACH, .ELSE, .END,
   .ESCAPE, .EXCEPT, .EXCLUDE, .EXCLUSIVE, .EXISTS, .EXPLAIN, .FAIL, .FILTER, .FIRST,
   .FOLLOWING, .FOR, .FOREIGN, .FROM, .FUNCTION, .GLOB, .GROUP, .GROUPS, .HAVING, .IF,
   .IF_NULL_ROW, .IGNORE, .IMMEDIATE, .IN, .INDEX, .INDEXED, .INITIALLY, .INNER, .INSERT,
   .INSTEAD, .INTERSECT, .INTO, .IS, .ISNOT, .ISNULL, .JOIN, .KEY, .LAST, .LEFT, .LIKE, .LIMIT,
   .MATCH, .NATURAL, .NO, .NOT, .NOTBETWEEN, .NOTEXISTS, .NOTGLOB, .NOTHING, .NOTIN, .NOTLIKE,
   .NOTMATCH, .NOTNULL, .NOTREGEXP, .NULLS, .OF, .OFFSET, .ON, .ONLY, .OR, .ORDER, .OTHERS,
   .OUTER, .OVER, .OVERRIDING, .PARTITION, .PLAN, .PRAGMA, .PRECEDING, .PRIMARY, .QUERY,
   .RAISE, .RANGE, .RECURSIVE, .REFERENCES, .REGEXP, .REGISTER, .REINDEX, .RELEASE, .RENAME,
   .RESTRICT, .RETURNING, .ROLLBACK, .ROW, .ROWS, .SELECT, .SELECT_COLUMN, .SET, .SPAN,
   .SYSTEM, .TABLE, .TEMP, .THEN, .TIES, .TO, .TRANSACTION, .TRIGGER, .TRUTH, .UNBOUNDED,
   .UNION, .UNIQUE, .UPDATE, .USER, .USING, .VACUUM, .VALUE, .VALUES, .VARIABLE, .VECTOR,
   .VIEW, .VIRTUAL, .WHEN, .WHERE, .WINDOW, .WITH, .WITHOUT, .FETCH, .NEXT, .NULL, .TRUE,
   .FALSE]

/-- Binding strength of a binary operator, `lowestPrec` for everything else. -/
def precedence : Token → Nat
  | OR => 1
  | AND => 2
  | NOT => 3
  | IS | MATCH | LIKE | GLOB | REGEXP | BETWEEN | IN | ISNULL | NOTNULL | NE | LG | EQ => 4
  | GT | LE | LT | GE => 5
  | ESCAPE => 6
  | BITAND | BITOR | LSHIFT | RSHIFT => 7
  | PLUS | MINUS => 8
  | STAR | SLASH | REM => 9
  | CONCAT => 10
  | BITNOT => 11
  | _ => 0

/-- `isIdentToken`. -/
def isIdent (t : Token) : Bool := t = IDENT || t = QIDENT

end Token

def lowestPrec : Nat := 0

/-- `Lookup`: the keyword an identifier spells, or `IDENT`. -/
def lookup (ident : Text) : Token :=
  match Token.keywords.find? (fun t => t.string = ident.map Char.toUpper) with
  | some t => t
  | none => .IDENT

/-- A token with its literal text. -/
structure Tok where
  /-- The kind. -/
  tok : Token
  /-- The literal, unescaped for strings and quoted identifiers. -/
  lit : Text
deriving DecidableEq, Repr

/-- The token with the text the table gives it. -/
def Tok.kw (t : Token) : Tok := ⟨t, t.string⟩

end Gofusion.Sqlparser
