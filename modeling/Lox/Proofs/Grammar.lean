import Lox.Program.Read
import Mathlib.Tactic.Common

/-!
# The grammar of the language

Expressions come in strata, from the loosest to the tightest:

    or         := and ["or" or]
    and        := equality ["and" and]
    equality   := comparison (("==" | "!=") comparison)*
    comparison := term (("<" | "<=" | ">" | ">=") term)*
    term       := factor (("+" | "-") factor)*
    factor     := unary (("*" | "/") unary)*
    unary      := ("!" | "-") unary | primary
    primary    := NUMBER | STRING | "true" | "false" | "nil" | "(" or ")"

A program is a sequence of statements: `"print" or ";"`, or `or ";"`, where the last one may leave
its semicolon out if it does not begin with `print`.

The grammar is given as data, three tables that say which operators a stratum has, and as one
relation: `Derives s ts e` says that the tokens `ts` are an expression of the stratum `s` with the
syntax tree `e`. A repetition groups to the left and an optional tail to the right; the tree records
how. Nothing here refers to how a text is read.
-/

namespace Lox

/-- The syntax tree of an expression. It keeps the tokens it is derived from. -/
inductive Tree where
  | literal (token : Token) (value : Value)
  | group (left : Token) (inner : Tree) (right : Token)
  | unary (op : UnaryOp) (token : Token) (operand : Tree)
  | binary (op : BinaryOp) (token : Token) (left right : Tree)
  | logic (op : LogicOp) (token : Token) (left right : Tree)

namespace Tree

/-- The tokens of a tree, from left to right. -/
def tokens : Tree → List Token
  | literal t _ => [t]
  | group l e r => l :: (e.tokens ++ [r])
  | unary _ t e => t :: e.tokens
  | binary _ t l r => l.tokens ++ t :: r.tokens
  | logic _ t l r => l.tokens ++ t :: r.tokens

/-- The values of the literals of a tree, from left to right. -/
def literals : Tree → List Value
  | literal _ v => [v]
  | group _ e _ => e.literals
  | unary _ _ e => e.literals
  | binary _ _ l r => l.literals ++ r.literals
  | logic _ _ l r => l.literals ++ r.literals

/-- The right operands of the logical operators in a tree. -/
def guarded : Tree → List Tree
  | literal .. => []
  | group _ e _ => e.guarded
  | unary _ _ e => e.guarded
  | binary _ _ l r => l.guarded ++ r.guarded
  | logic _ _ l r => r :: (l.guarded ++ r.guarded)

end Tree

namespace Grammar

/-- The strata of expressions, from the loosest to the tightest. -/
inductive Stratum where
  | or | and | equality | comparison | term | factor | unary | primary
  deriving DecidableEq, Repr

namespace Stratum

/-- The stratum whose expressions are the operands of a stratum. -/
def next : Stratum → Stratum
  | or => and
  | and => equality
  | equality => comparison
  | comparison => term
  | term => factor
  | factor => unary
  | unary => primary
  | primary => primary

/-- The operators that a stratum repeats between its operands. -/
def chains : Stratum → List (Token.Kind × BinaryOp)
  | equality => [(.equalEqual, .equal), (.bangEqual, .notEqual)]
  | comparison =>
    [(.less, .less), (.lessEqual, .lessEqual), (.greater, .greater), (.greaterEqual, .greaterEqual)]
  | term => [(.plus, .add), (.minus, .sub)]
  | factor => [(.star, .mul), (.slash, .div)]
  | _ => []

/-- The operator that a stratum has before its optional tail. -/
def joins : Stratum → List (Token.Kind × LogicOp)
  | or => [(.kwOr, .or)]
  | and => [(.kwAnd, .and)]
  | _ => []

/-- The operators that a stratum has before its expressions. -/
def signs : Stratum → List (Token.Kind × UnaryOp)
  | unary => [(.bang, .not), (.minus, .negate)]
  | _ => []

end Stratum

/-- A token is a literal with this value. -/
inductive Literal : Token → Value → Prop where
  | number {t : Token} : t.kind = .number → Literal t (.number (Number.ofLiteral t.lexeme))
  | text {t : Token} : t.kind = .text → Literal t (.text (Expr.unquoted t.lexeme))
  | yes {t : Token} : t.kind = .kwTrue → Literal t (.bool true)
  | no {t : Token} : t.kind = .kwFalse → Literal t (.bool false)
  | nil {t : Token} : t.kind = .kwNil → Literal t .nil

/-- The tokens are an expression of a stratum, with this syntax tree. -/
inductive Derives : Stratum → List Token → Tree → Prop where
  /-- An operand alone. -/
  | operand {s : Stratum} {ts : List Token} {e : Tree} : Derives s.next ts e → Derives s ts e
  /-- One more operand of a repetition. -/
  | chain {s : Stratum} {op : BinaryOp} {t : Token} {ts us : List Token} {l r : Tree} :
      (t.kind, op) ∈ s.chains → Derives s ts l → Derives s.next us r →
        Derives s (ts ++ t :: us) (.binary op t l r)
  /-- An operand and a tail. -/
  | join {s : Stratum} {op : LogicOp} {t : Token} {ts us : List Token} {l r : Tree} :
      (t.kind, op) ∈ s.joins → Derives s.next ts l → Derives s us r →
        Derives s (ts ++ t :: us) (.logic op t l r)
  /-- An operator before its operand. -/
  | sign {s : Stratum} {op : UnaryOp} {t : Token} {ts : List Token} {e : Tree} :
      (t.kind, op) ∈ s.signs → Derives s ts e → Derives s (t :: ts) (.unary op t e)
  /-- A literal. -/
  | literal {t : Token} {v : Value} : Literal t v → Derives .primary [t] (.literal t v)
  /-- An expression in parentheses. -/
  | group {l r : Token} {ts : List Token} {e : Tree} :
      l.kind = .leftParen → Derives .or ts e → r.kind = .rightParen →
        Derives .primary (l :: (ts ++ [r])) (.group l e r)

/-- A statement. -/
inductive Sentence where
  | print (word : Token) (e : Tree) (semicolon : Token)
  | expr (e : Tree) (semicolon? : Option Token)

namespace Sentence

/-- The expression of a statement. -/
def tree : Sentence → Tree
  | print _ e _ => e
  | expr e _ => e

end Sentence

/-- The tokens are a program with these statements. -/
inductive Sentences : List Token → List Sentence → Prop where
  | nil : Sentences [] []
  | print {w s : Token} {ts us : List Token} {e : Tree} {p : List Sentence} :
      w.kind = .kwPrint → Derives .or ts e → s.kind = .semicolon → Sentences us p →
        Sentences (w :: (ts ++ s :: us)) (.print w e s :: p)
  | expr {s : Token} {ts us : List Token} {e : Tree} {p : List Sentence} :
      Derives .or ts e → s.kind = .semicolon → Sentences us p →
        Sentences (ts ++ s :: us) (.expr e (some s) :: p)
  /-- The last statement without its semicolon. -/
  | last {ts : List Token} {e : Tree} : Derives .or ts e → Sentences ts [.expr e none]

/-- The values of the literals of a program, in order. -/
def literals (p : List Sentence) : List Value :=
  p.flatMap fun s => s.tree.literals

/-- The right operands of the logical operators of a program. -/
def guarded (p : List Sentence) : List Tree :=
  p.flatMap fun s => s.tree.guarded

/-! ## Derivations and their trees -/

variable {s : Stratum} {ts : List Token} {e : Tree}

/-- A literal is an expression on its own. -/
theorem Literal.derives {t : Token} {v : Value} (h : Literal t v) :
    Derives .or [t] (.literal t v) := by
  have hunary : Derives .unary [t] (.literal t v) := .operand (.literal h)
  have hequality : Derives .equality [t] (.literal t v) :=
    .operand (.operand (.operand (.operand hunary)))
  exact .operand (.operand hequality)

/-- The literals of a derived tree have the values of their tokens. -/
theorem Derives.exists_literal (h : Derives s ts e) {v : Value} (hv : v ∈ e.literals) :
    ∃ t ∈ ts, Literal t v := by
  induction h with
  | operand _ ih => exact ih hv
  | chain _ _ _ ihl ihr | join _ _ _ ihl ihr =>
    rcases List.mem_append.mp hv with hv | hv
    · obtain ⟨t, ht, hliteral⟩ := ihl hv
      exact ⟨t, List.mem_append_left _ ht, hliteral⟩
    · obtain ⟨t, ht, hliteral⟩ := ihr hv
      exact ⟨t, List.mem_append_right _ (List.mem_cons_of_mem _ ht), hliteral⟩
  | sign _ _ ih =>
    obtain ⟨t, ht, hliteral⟩ := ih hv
    exact ⟨t, List.mem_cons_of_mem _ ht, hliteral⟩
  | @literal t v h =>
    obtain rfl := List.mem_singleton.mp hv
    exact ⟨t, List.mem_singleton_self t, h⟩
  | group _ _ _ ih =>
    obtain ⟨t, ht, hliteral⟩ := ih hv
    exact ⟨t, List.mem_cons_of_mem _ (List.mem_append_left _ ht), hliteral⟩

/-- The literals of a program have the values of its tokens. -/
theorem Sentences.exists_literal {p : List Sentence} (h : Sentences ts p) {v : Value}
    (hv : v ∈ literals p) : ∃ t ∈ ts, Literal t v := by
  induction h with
  | nil => cases hv
  | print _ he _ _ ih =>
    rw [literals, List.flatMap_cons, List.mem_append] at hv
    rcases hv with hv | hv
    · obtain ⟨t, ht, hliteral⟩ := he.exists_literal hv
      exact ⟨t, List.mem_cons_of_mem _ (List.mem_append_left _ ht), hliteral⟩
    · obtain ⟨t, ht, hliteral⟩ := ih hv
      exact ⟨t, List.mem_cons_of_mem _ (List.mem_append_right _ (List.mem_cons_of_mem _ ht)),
        hliteral⟩
  | expr he _ _ ih =>
    rw [literals, List.flatMap_cons, List.mem_append] at hv
    rcases hv with hv | hv
    · obtain ⟨t, ht, hliteral⟩ := he.exists_literal hv
      exact ⟨t, List.mem_append_left _ ht, hliteral⟩
    · obtain ⟨t, ht, hliteral⟩ := ih hv
      exact ⟨t, List.mem_append_right _ (List.mem_cons_of_mem _ ht), hliteral⟩
  | last he =>
    rw [literals, List.flatMap_cons, List.flatMap_nil, List.append_nil] at hv
    exact he.exists_literal hv

end Grammar

end Lox
