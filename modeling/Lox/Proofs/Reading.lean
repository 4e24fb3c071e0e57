import Lox.Proofs.Grammar

/-!
# Reading is deriving

The reader of expressions works with frames and floors and knows no strata. Here it is shown to
find the trees of the grammar and no others:

* `parseFrom_of_derives`: what is derived is read, whatever follows it, as long as that is no
  operator of the stratum or of a tighter one.
* `parse_sound`: when the expression read is a tree, its tokens are what was consumed, and they
  derive it.
* `parse_of_derives`: a whole expression is read as its tree. As the reader gives one answer, the
  grammar is unambiguous.

A stratum has a rank, the rank of its operators, and a bound: an operator below the bound ends
an expression of the stratum. The two differ by one where operators group to the left.
-/

namespace Lox

/-- A token with no strays after it. -/
def Cell.plain (t : Token) : Cell :=
  ⟨t, []⟩

@[simp] theorem Cell.token_plain (t : Token) : (Cell.plain t).token = t := rfl

/-- Different tokens without strays are different cells. -/
theorem Cell.plain_injective {t u : Token} (h : Cell.plain t = Cell.plain u) : t = u :=
  congrArg Cell.token h

/-- The expression that a tree is read as. -/
def Tree.expr : Tree → Expr
  | literal t v => .literal (.plain t) v
  | group l e r => .group (.plain l) e.expr (.closed (.plain r))
  | unary op t e => .unary op (.plain t) e.expr
  | binary op t l r => .binary op (.plain t) l.expr r.expr
  | logic op t l r => .logic op (.plain t) l.expr r.expr

/-- An expression is read as one tree at most. -/
theorem Tree.expr_injective {e f : Tree} (h : e.expr = f.expr) : e = f := by
  induction e generalizing f with
  | literal t v =>
    cases f <;> simp only [Tree.expr, reduceCtorEq] at h
    obtain ⟨ht, rfl⟩ := Expr.literal.inj h
    rw [Cell.plain_injective ht]
  | group l e r ih =>
    cases f <;> simp only [Tree.expr, reduceCtorEq] at h
    obtain ⟨hl, he, hr⟩ := Expr.group.inj h
    rw [Cell.plain_injective hl, ih he, Cell.plain_injective (Closing.closed.inj hr)]
  | unary op t e ih =>
    cases f <;> simp only [Tree.expr, reduceCtorEq] at h
    obtain ⟨rfl, ht, he⟩ := Expr.unary.inj h
    rw [Cell.plain_injective ht, ih he]
  | binary op t l r ihl ihr =>
    cases f <;> simp only [Tree.expr, reduceCtorEq] at h
    obtain ⟨rfl, ht, hl, hr⟩ := Expr.binary.inj h
    rw [Cell.plain_injective ht, ihl hl, ihr hr]
  | logic op t l r ihl ihr =>
    cases f <;> simp only [Tree.expr, reduceCtorEq] at h
    obtain ⟨rfl, ht, hl, hr⟩ := Expr.logic.inj h
    rw [Cell.plain_injective ht, ihl hl, ihr hr]

namespace Grammar

namespace Stratum

/-- The rank of the operators of a stratum. -/
def rank : Stratum → Nat
  | or => Precedence.or.rank
  | and => Precedence.and.rank
  | equality => Precedence.equality.rank
  | comparison => Precedence.comparison.rank
  | term => Precedence.term.rank
  | factor => Precedence.factor.rank
  | unary => Precedence.unary.rank
  | primary => Precedence.primary.rank

/-- An operator below this rank ends an expression of the stratum. -/
def bound : Stratum → Nat
  | or => Precedence.or.rank
  | and => Precedence.and.rank
  | equality => Precedence.equality.rank + 1
  | comparison => Precedence.comparison.rank + 1
  | term => Precedence.term.rank + 1
  | factor => Precedence.factor.rank + 1
  | unary => Precedence.unary.rank
  | primary => Precedence.unary.rank

/-- The stratum of a binary operator. -/
def ofBinary : BinaryOp → Stratum
  | .equal | .notEqual => equality
  | .greater | .greaterEqual | .less | .lessEqual => comparison
  | .add | .sub => term
  | .mul | .div => factor

/-- The stratum of a logical operator. -/
def ofLogic : LogicOp → Stratum
  | .and => and
  | .or => or

/-- The stratum of an operator. -/
def ofOperator : Operator → Stratum
  | .binary op => ofBinary op
  | .logic op => ofLogic op

/-- The stratum of an operator's left operand. -/
def left : Operator → Stratum
  | .binary op => ofBinary op
  | .logic op => (ofLogic op).next

/-- The stratum of an operator's right operand. -/
def right : Operator → Stratum
  | .binary op => (ofBinary op).next
  | .logic op => ofLogic op

/-- The operators of a tighter stratum have no lower rank. -/
theorem rank_le_next (s : Stratum) : s.rank ≤ s.next.rank := by cases s <;> decide

/-- What ends an expression of a stratum ends one of the next, tighter stratum. -/
theorem bound_le_next (s : Stratum) : s.bound ≤ s.next.bound := by cases s <;> decide

/-- The ranks of strata leave no gaps. -/
theorem eq_or_next_le {s s' : Stratum} (h : s.rank ≤ s'.rank) :
    s = s' ∨ s.rank < s.next.rank ∧ s.next.rank ≤ s'.rank := by
  revert h
  cases s <;> cases s' <;> decide

/-- The rank of an operator is that of its stratum. -/
theorem rank_ofOperator (op : Operator) : (ofOperator op).rank = op.rank := by
  rcases op with op | op <;> cases op <;> rfl

/-- What ends an expression of an operator's stratum is what its right operand leaves. -/
theorem bound_ofOperator (op : Operator) : (ofOperator op).bound = op.rightFloor := by
  rcases op with op | op <;> cases op <;> rfl

/-- The left operand of an operator binds no less tightly. -/
theorem rank_le_left (op : Operator) : op.rank ≤ (left op).rank := by
  rcases op with op | op <;> cases op <;> decide

/-- An operator ends its own left operand. -/
theorem rank_lt_bound_left (op : Operator) : op.rank < (left op).bound := by
  rcases op with op | op <;> cases op <;> decide

/-- An expression that an operator ends may be its left operand. -/
theorem rank_left_le {op : Operator} {s : Stratum} (h : op.rank < s.bound) :
    (left op).rank ≤ s.rank := by
  revert h
  rcases op with op | op <;> cases op <;> cases s <;> decide

/-- The right operand of an operator binds as tightly as the reader asks. -/
theorem rank_right (op : Operator) : (right op).rank = op.rightFloor := by
  rcases op with op | op <;> cases op <;> rfl

/-- What ends an operation ends its right operand. -/
theorem bound_le_right (op : Operator) : (ofOperator op).bound ≤ (right op).bound := by
  rcases op with op | op <;> cases op <;> decide

end Stratum

/-- The table of repeated operators is the reader's. -/
theorem mem_chains_iff {s : Stratum} {k : Token.Kind} {op : BinaryOp} :
    (k, op) ∈ s.chains ↔ Operator.ofKind? k = some (.binary op) ∧ s = .ofBinary op := by
  constructor
  · have hall : ∀ entry ∈ s.chains,
        Operator.ofKind? entry.1 = some (.binary entry.2) ∧ s = .ofBinary entry.2 := by
      cases s <;> decide
    exact hall (k, op)
  · rintro ⟨h, rfl⟩
    unfold Operator.ofKind? at h
    split at h <;> cases h <;> decide

/-- The table of operators before a tail is the reader's. -/
theorem mem_joins_iff {s : Stratum} {k : Token.Kind} {op : LogicOp} :
    (k, op) ∈ s.joins ↔ Operator.ofKind? k = some (.logic op) ∧ s = .ofLogic op := by
  constructor
  · have hall : ∀ entry ∈ s.joins,
        Operator.ofKind? entry.1 = some (.logic entry.2) ∧ s = .ofLogic entry.2 := by
      cases s <;> decide
    exact hall (k, op)
  · rintro ⟨h, rfl⟩
    unfold Operator.ofKind? at h
    split at h <;> cases h <;> decide

/-- The table of operators before an operand is the reader's. -/
theorem mem_signs_iff {s : Stratum} {k : Token.Kind} {op : UnaryOp} :
    (k, op) ∈ s.signs ↔ UnaryOp.ofKind? k = some op ∧ s = .unary := by
  constructor
  · have hall : ∀ entry ∈ s.signs, UnaryOp.ofKind? entry.1 = some entry.2 ∧ s = .unary := by
      cases s <;> decide
    exact hall (k, op)
  · rintro ⟨h, rfl⟩
    unfold UnaryOp.ofKind? at h
    split at h <;> cases h <;> decide

/-- The literals are the reader's. -/
theorem start_eq_literal_iff {t : Token} {v : Value} :
    Expr.start t = .literal v ↔ Literal t v := by
  constructor
  · intro h
    unfold Expr.start at h
    split at h
    case h_1 hk => cases h; exact .number hk
    case h_2 hk => cases h; exact .text hk
    case h_3 hk => cases h; exact .yes hk
    case h_4 hk => cases h; exact .no hk
    case h_5 hk => cases h; exact .nil hk
    case h_6 => cases h
    case h_7 => split at h <;> cases h
  · intro h
    cases h <;> rename_i hk <;> simp only [Expr.start, hk]

/-- A group begins with a left parenthesis. -/
theorem start_eq_group_iff {t : Token} : Expr.start t = .group ↔ t.kind = .leftParen := by
  constructor
  · intro h
    unfold Expr.start at h
    split at h
    case h_6 hk => exact hk
    case h_7 => split at h <;> cases h
    all_goals cases h
  · intro h
    simp only [Expr.start, h]

/-- A unary operation begins with its operator. -/
theorem start_eq_unary_iff {t : Token} {op : UnaryOp} :
    Expr.start t = .unary op ↔ UnaryOp.ofKind? t.kind = some op := by
  constructor
  · intro h
    unfold Expr.start at h
    split at h
    case h_7 =>
      split at h
      · cases h
        assumption
      · cases h
    all_goals cases h
  · intro h
    have hk : t.kind = .bang ∨ t.kind = .minus := by
      unfold UnaryOp.ofKind? at h
      split at h
      · exact .inl ‹_›
      · exact .inr ‹_›
      · cases h
    rcases hk with hk | hk <;> simp only [Expr.start, hk] at h ⊢ <;> rw [h]

end Grammar

/-- The tree of an operator and its operands. -/
def Tree.ofOperator (op : Operator) (t : Token) (l r : Tree) : Tree :=
  match op with
  | .binary op => .binary op t l r
  | .logic op => .logic op t l r

namespace Grammar

/-- The two rules for operators between operands, in one. -/
theorem Derives.operator {op : Operator} {t : Token} {ts us : List Token} {l r : Tree}
    (hop : Operator.ofKind? t.kind = some op) (hl : Derives (.left op) ts l)
    (hr : Derives (.right op) us r) :
    Derives (.ofOperator op) (ts ++ t :: us) (.ofOperator op t l r) := by
  cases op with
  | binary op => exact .chain (mem_chains_iff.mpr ⟨hop, rfl⟩) hl hr
  | logic op => exact .join (mem_joins_iff.mpr ⟨hop, rfl⟩) hl hr

/-- Induction on a derivation with one case for all operators between operands. -/
@[elab_as_elim]
theorem Derives.rec_operator {P : (s : Stratum) → (ts : List Token) → (e : Tree) →
      Derives s ts e → Prop}
    (operand : ∀ s ts e (h : Derives s.next ts e), P _ _ _ h → P s ts e (.operand h))
    (operator : ∀ op (t : Token) ts us l r (hop : Operator.ofKind? t.kind = some op)
      (hl : Derives (.left op) ts l) (hr : Derives (.right op) us r), P _ _ _ hl → P _ _ _ hr →
        P _ _ _ (Derives.operator hop hl hr))
    (sign : ∀ op (t : Token) ts e (hop : UnaryOp.ofKind? t.kind = some op)
      (h : Derives .unary ts e), P _ _ _ h →
        P _ _ _ (.sign (mem_signs_iff.mpr ⟨hop, rfl⟩) h))
    (literal : ∀ t v (h : Literal t v), P _ _ _ (.literal h))
    (group : ∀ (l r : Token) ts e (hl : l.kind = .leftParen) (h : Derives .or ts e)
      (hr : r.kind = .rightParen), P _ _ _ h → P _ _ _ (.group hl h hr))
    {s : Stratum} {ts : List Token} {e : Tree} (h : Derives s ts e) : P s ts e h := by
  induction h with
  | operand h ih => exact operand _ _ _ h ih
  | @chain s op t ts us l r hop hl hr ihl ihr =>
    obtain ⟨hkind, rfl⟩ := mem_chains_iff.mp hop
    exact operator (.binary op) t ts us l r hkind hl hr ihl ihr
  | @join s op t ts us l r hop hl hr ihl ihr =>
    obtain ⟨hkind, rfl⟩ := mem_joins_iff.mp hop
    exact operator (.logic op) t ts us l r hkind hl hr ihl ihr
  | sign hop h ih =>
    obtain ⟨hkind, rfl⟩ := mem_signs_iff.mp hop
    exact sign _ _ _ _ hkind h ih
  | literal h => exact literal _ _ h
  | group hl h hr ih => exact group _ _ _ _ hl h hr ih

/-- An expression of a stratum belongs to every looser one. -/
theorem Derives.loosen {s s' : Stratum} {ts : List Token} {e : Tree} (h : Derives s' ts e)
    (hle : s.rank ≤ s'.rank) : Derives s ts e := by
  induction hn : s'.rank - s.rank using Nat.strongRecOn generalizing s with
  | _ n ih =>
    rcases Stratum.eq_or_next_le hle with rfl | ⟨hlt, hnext⟩
    · exact h
    · exact .operand (ih _ (by omega) hnext rfl)

end Grammar

/-! ## What is derived is read -/

open Grammar

namespace Expr

/-- The least rank of an operator that continues the operand of the innermost frame. -/
def floorOf : List Frame → Nat
  | [] => Precedence.assignment.rank
  | f :: _ => f.floor

/-- An operator asks of its right operand what the reader asks. -/
theorem floor_ofOperator (op : Operator) (c : Cell) (l : Expr) :
    (Frame.ofOperator op c l).floor = op.rightFloor := by
  cases op <;> rfl

/-- No operator of rank `n` or above comes next. -/
def Ends (n : Nat) (rest : List Cell) : Prop :=
  ∀ c ∈ rest.head?, ∀ op, Operator.ofKind? c.token.kind = some op → op.rank < n

/-- What ends an expression ends one that binds more tightly. -/
theorem Ends.mono {n m : Nat} {rest : List Cell} (h : Ends n rest) (hle : n ≤ m) : Ends m rest :=
  fun c hc op hop => Nat.lt_of_lt_of_le (h c hc op hop) hle

/-- A token that is no operator ends any expression. -/
theorem ends_of_ofKind? {n : Nat} {c : Cell} {cs : List Cell}
    (h : Operator.ofKind? c.token.kind = none) : Ends n (c :: cs) := by
  intro d hd op hop
  obtain rfl : c = d := by simpa using hd
  rw [h] at hop
  cases hop

/-- The end of the source ends every expression. -/
theorem ends_nil (n : Nat) : Ends n [] := nofun

/-- A token continues an operand if it is an operator of a sufficient rank. -/
theorem continuing?_eq_some_iff {n : Nat} {t : Token} {op : Operator} :
    continuing? n t = some op ↔ Operator.ofKind? t.kind = some op ∧ n ≤ op.rank := by
  simp [continuing?, Option.filter_eq_some_iff]

/-- A token does not continue an operand if it is no operator of a sufficient rank. -/
theorem continuing?_eq_none_iff {n : Nat} {t : Token} :
    continuing? n t = none ↔ ∀ op, Operator.ofKind? t.kind = some op → op.rank < n := by
  simp [continuing?, Option.filter_eq_none_iff]

section Settle

variable {next : Token} {open_ : Bool} {e : Expr} {f : Frame} {fs : List Frame}

/-- An operator that continues the operand is shifted. -/
theorem settle_of_continuing {op : Operator} (h : continuing? (floorOf fs) next = some op) :
    settle next true e fs = .shift op e fs := by
  cases fs <;> simp only [floorOf] at h <;> simp only [settle, if_true, h]

/-- A token that does not continue the operand completes the innermost frame, if it does not close
it. -/
theorem settle_complete (h : (if open_ then continuing? f.floor next else none) = none)
    (hf : ∀ paren, f = .group paren → next.kind ≠ .rightParen) :
    settle next open_ e (f :: fs) = settle next true (f.complete next e) fs := by
  simp only [settle, h]

/-- A parenthesis closes the innermost frame. -/
theorem settle_close {paren : Cell} (h : next.kind = .rightParen) :
    settle next open_ e (.group paren :: fs) = .close paren e fs := by
  have hnone : (if open_ then continuing? (Frame.group paren).floor next else none) = none := by
    split
    · exact continuing?_eq_none_iff.mpr fun op hop => by simp [h, Operator.ofKind?] at hop
    · rfl
  simp only [settle, hnone, h]

/-- All that the token after an operand can lead to. It is an operator that takes the operand, it
closes the innermost frame, or there is no frame left and the expression is done. Else it completes
the innermost frame, and leads from there to what it leads to. -/
theorem settle_induction {motive : Expr → List Frame → Settled → Prop}
    (shift : ∀ op e fs, Operator.ofKind? next.kind = some op → motive e fs (.shift op e fs))
    (close : ∀ paren e fs, next.kind = .rightParen →
      motive e (.group paren :: fs) (.close paren e fs))
    (done : ∀ e, motive e [] (.done e))
    (complete : ∀ f e fs s, motive (f.complete next e) fs s → motive e (f :: fs) s)
    (open_ : Bool) (e : Expr) (fs : List Frame) : motive e fs (settle next open_ e fs) := by
  -- whatever the floor is, what continues the operand is an operator
  have hshift : ∀ {n : Nat} {open_ : Bool} {op : Operator} {e : Expr} {fs : List Frame},
      (if open_ then continuing? n next else none) = some op → motive e fs (.shift op e fs) := by
    intro n open_ op e fs h
    split at h
    · exact shift op e fs (continuing?_eq_some_iff.mp h).1
    · cases h
  induction fs generalizing open_ e with
  | nil =>
    rw [settle]
    split
    · rename_i h
      exact hshift h
    · exact done e
  | cons f fs ih =>
    cases hcont : if open_ then continuing? f.floor next else none with
    | some op =>
      simp only [settle, hcont]
      exact hshift hcont
    | none =>
      by_cases hclose : ∃ paren, f = .group paren ∧ next.kind = .rightParen
      · obtain ⟨paren, rfl, hkind⟩ := hclose
        rw [settle_close hkind]
        exact close paren e fs hkind
      · rw [settle_complete hcont fun paren hf hkind => hclose ⟨paren, hf, hkind⟩]
        exact complete f e fs _ (ih true (f.complete next e))

end Settle

/-- A token takes the reader from one mode, with some frames, to another. -/
inductive Moves (c : Cell) : Mode → List Frame → Mode → List Frame → Prop where
  | literal {fs : List Frame} {v : Value} : start c.token = .literal v →
      Moves c .operand fs (.after true (.literal c v)) fs
  | group {fs : List Frame} : start c.token = .group → Moves c .operand fs .operand (.group c :: fs)
  | unary {fs : List Frame} {op : UnaryOp} : start c.token = .unary op →
      Moves c .operand fs .operand (.unary op c :: fs)
  | missing {fs : List Frame} : start c.token = .nothing →
      Moves c .operand fs (.after false (.missing c)) fs
  | shift {open_ : Bool} {e e' : Expr} {fs fs' : List Frame} {op : Operator} :
      settle c.token open_ e fs = .shift op e' fs' →
      Moves c (.after open_ e) fs .operand (.ofOperator op c e' :: fs')
  | close {open_ : Bool} {e e' : Expr} {fs fs' : List Frame} {paren : Cell} :
      settle c.token open_ e fs = .close paren e' fs' →
      Moves c (.after open_ e) fs (.after true (.group paren e' (.closed c))) fs'

/-- All that a token can do: it is taken and reading goes on, or the expression ends before it. -/
theorem parseFrom_cons (finish : Token) (c : Cell) (cs : List Cell) (mode : Mode)
    (fs : List Frame) :
    (∃ mode' fs', Moves c mode fs mode' fs' ∧
        parseFrom finish (c :: cs) mode fs = parseFrom finish cs mode' fs') ∨
      ∃ open_ e e', mode = .after open_ e ∧ settle c.token open_ e fs = .done e' ∧
        parseFrom finish (c :: cs) mode fs = (e', c :: cs) := by
  cases mode with
  | operand =>
    left
    cases hstart : start c.token with
    | literal v => exact ⟨_, _, .literal hstart, by simp only [parseFrom, hstart]⟩
    | group => exact ⟨_, _, .group hstart, by simp only [parseFrom, hstart]⟩
    | unary op => exact ⟨_, _, .unary hstart, by simp only [parseFrom, hstart]⟩
    | nothing => exact ⟨_, _, .missing hstart, by simp only [parseFrom, hstart]⟩
  | after open_ e =>
    cases hsettle : settle c.token open_ e fs with
    | shift op e' fs' => exact .inl ⟨_, _, .shift hsettle, by simp only [parseFrom, hsettle]⟩
    | close paren e' fs' => exact .inl ⟨_, _, .close hsettle, by simp only [parseFrom, hsettle]⟩
    | done e' => exact .inr ⟨open_, e, e', rfl, hsettle, by simp only [parseFrom, hsettle]⟩

section Frames

variable {finish : Token} {c : Cell} {cs rest : List Cell} {e : Expr} {fs : List Frame}

/-- An operator that binds tightly enough takes the operand as its left one. -/
theorem parseFrom_shift {op : Operator} (hop : Operator.ofKind? c.token.kind = some op)
    (hfloor : floorOf fs ≤ op.rank) :
    parseFrom finish (c :: cs) (.after true e) fs =
      parseFrom finish cs .operand (.ofOperator op c e :: fs) := by
  rw [parseFrom, settle_of_continuing (continuing?_eq_some_iff.mpr ⟨hop, hfloor⟩)]

/-- A frame other than a group is completed by its operand. -/
theorem parseFrom_complete {f : Frame} (hf : ∀ paren, f ≠ .group paren)
    (hrest : Ends f.floor rest) :
    parseFrom finish rest (.after true e) (f :: fs) =
      parseFrom finish rest (.after true (f.complete finish e)) fs := by
  cases rest with
  | nil => rfl
  | cons c cs =>
    have hnone : continuing? f.floor c.token = none :=
      continuing?_eq_none_iff.mpr (hrest c rfl)
    have hcomplete : f.complete c.token e = f.complete finish e := by
      cases f with
      | group paren => exact absurd rfl (hf paren)
      | _ => rfl
    rw [parseFrom, parseFrom, settle_complete (by rw [if_pos rfl, hnone]), hcomplete]
    exact fun paren h => absurd h (hf paren)

/-- A parenthesis completes a group. -/
theorem parseFrom_close {paren : Cell} (h : c.token.kind = .rightParen) :
    parseFrom finish (c :: cs) (.after true e) (.group paren :: fs) =
      parseFrom finish cs (.after true (.group paren e (.closed c))) fs := by
  rw [parseFrom, settle_close h]

/-- What is derived is read, before anything that ends it. -/
theorem parseFrom_of_derives {s : Stratum} {ts : List Token} {t : Tree} (h : Derives s ts t)
    (hfloor : floorOf fs ≤ s.rank) (hrest : Ends s.bound rest) :
    parseFrom finish (ts.map .plain ++ rest) .operand fs =
      parseFrom finish rest (.after true t.expr) fs := by
  induction h using Derives.rec_operator generalizing fs rest with
  | operand s ts e _ ih =>
    exact ih (Nat.le_trans hfloor s.rank_le_next) (hrest.mono s.bound_le_next)
  | operator op t ts us l r hop _ _ ihl ihr =>
    rw [Stratum.rank_ofOperator] at hfloor
    have hleft : Ends (Stratum.left op).bound (.plain t :: (us.map .plain ++ rest)) := by
      intro d hd op' hop'
      obtain rfl : Cell.plain t = d := by simpa using hd
      obtain rfl : op = op' := by simpa [hop] using hop'
      exact Stratum.rank_lt_bound_left op
    rw [List.map_append, List.map_cons, List.append_assoc, List.cons_append,
      ihl (Nat.le_trans hfloor (Stratum.rank_le_left op)) hleft, parseFrom_shift hop hfloor,
      ihr (Nat.le_of_eq (by rw [floorOf, floor_ofOperator, Stratum.rank_right]))
        (hrest.mono (Stratum.bound_le_right op)),
      parseFrom_complete (by cases op <;> intro _ h <;> cases h)]
    · cases op <;> rfl
    · rwa [floor_ofOperator, ← Stratum.bound_ofOperator]
  | sign op t ts e hop _ ih =>
    rw [List.map_cons, List.cons_append, parseFrom, Cell.token_plain,
      start_eq_unary_iff.mpr hop]
    dsimp only
    rw [ih (Nat.le_refl _) hrest, parseFrom_complete (f := .unary op (.plain t))
      (fun _ h => by cases h) hrest]
    rfl
  | literal t v h =>
    rw [List.map_singleton, List.singleton_append, parseFrom, Cell.token_plain,
      start_eq_literal_iff.mpr h]
    rfl
  | group l r ts e hl _ hr ih =>
    rw [List.map_cons, List.map_append, List.map_singleton, List.cons_append, List.append_assoc,
      List.singleton_append, parseFrom, Cell.token_plain, start_eq_group_iff.mpr hl]
    dsimp only
    have hgroup : floorOf (.group (.plain l) :: fs) ≤ Stratum.or.rank := Nat.le_succ 1
    have hright : Operator.ofKind? (Cell.plain r).token.kind = none := by
      rw [Cell.token_plain, hr]
      rfl
    rw [ih hgroup (ends_of_ofKind? hright), parseFrom_close hr]
    rfl

end Frames

/-! ## What is read is derived -/

end Expr

/-- The cells that end a group. -/
def Closing.cells : Closing → List Cell
  | closed c => [c]
  | unclosed _ => []

namespace Expr

/-- The cells of an expression, from left to right. -/
def cells : Expr → List Cell
  | literal c _ => [c]
  | missing c => [c]
  | group c e closing => c :: (e.cells ++ closing.cells)
  | unary _ c e => c :: e.cells
  | binary _ c l r => l.cells ++ c :: r.cells
  | logic _ c l r => l.cells ++ c :: r.cells

/-- The cells of the expression that a tree is read as are its tokens, without strays. -/
theorem cells_expr (t : Tree) : t.expr.cells = t.tokens.map .plain := by
  induction t with
  | literal t v => rfl
  | group l e r ih => simp [Tree.expr, cells, Tree.tokens, Closing.cells, ih]
  | unary op t e ih => simp [Tree.expr, cells, Tree.tokens, ih]
  | binary op t l r ihl ihr | logic op t l r ihl ihr =>
    simp [Tree.expr, cells, Tree.tokens, ihl, ihr]

/-- An expression is a tree of a stratum, if it is a tree at all. It may be none where the source
breaks the grammar. -/
def Conforms (s : Stratum) (e : Expr) : Prop :=
  ∀ t : Tree, e = t.expr → Derives s t.tokens t

/-- A tree of a stratum is one of every looser stratum. -/
theorem Conforms.loosen {s s' : Stratum} {e : Expr} (h : Conforms s' e) (hle : s.rank ≤ s'.rank) :
    Conforms s e :=
  fun t ht => (h t ht).loosen hle

/-- Of what is no tree nothing is asked. -/
theorem conforms_of_ne {e : Expr} (h : ∀ t : Tree, e ≠ t.expr) (s : Stratum) : Conforms s e :=
  fun t ht => absurd ht (h t)

namespace Frame

/-- The cells that a frame holds. -/
def cells : Frame → List Cell
  | group c => [c]
  | unary _ c => [c]
  | binary _ c l => l.cells ++ [c]
  | logic _ c l => l.cells ++ [c]

/-- The stratum of what a frame becomes. -/
def stratum : Frame → Stratum
  | group _ => .primary
  | unary .. => .unary
  | binary op .. => .ofOperator (.binary op)
  | logic op .. => .ofOperator (.logic op)

/-- A frame begins as the grammar says. -/
def Sound : Frame → Prop
  | group c => c.token.kind = .leftParen
  | unary op c => UnaryOp.ofKind? c.token.kind = some op
  | binary op c l =>
    Operator.ofKind? c.token.kind = some (.binary op) ∧ Conforms (.left (.binary op)) l
  | logic op c l =>
    Operator.ofKind? c.token.kind = some (.logic op) ∧ Conforms (.left (.logic op)) l

/-- A completed frame holds its cells and those of its operand. -/
theorem cells_complete (f : Frame) (next : Token) (e : Expr) :
    (f.complete next e).cells = f.cells ++ e.cells := by
  cases f <;> simp [complete, cells, Expr.cells, Closing.cells]

/-- The frame of an operator holds its left operand and the operator. -/
theorem cells_ofOperator (op : Operator) (c : Cell) (l : Expr) :
    (ofOperator op c l).cells = l.cells ++ [c] := by
  cases op <;> rfl

/-- The frame of an operator becomes an operation of its stratum. -/
theorem stratum_ofOperator (op : Operator) (c : Cell) (l : Expr) :
    (ofOperator op c l).stratum = .ofOperator op := by
  cases op <;> rfl

/-- The frame of an operator begins as the grammar says if its left operand does. -/
theorem sound_ofOperator {op : Operator} {c : Cell} {l : Expr}
    (hop : Operator.ofKind? c.token.kind = some op) (hl : Conforms (.left op) l) :
    (ofOperator op c l).Sound := by
  cases op <;> exact ⟨hop, hl⟩

/-- Whatever does not continue the operand of a frame ends the frame. -/
theorem floor_le_bound (f : Frame) : f.floor ≤ f.stratum.bound := by
  cases f with
  | group c =>
    change Precedence.assignment.rank ≤ Stratum.primary.bound
    decide
  | unary op c => exact Nat.le_refl _
  | binary op c l => exact Nat.le_of_eq (Stratum.bound_ofOperator (.binary op)).symm
  | logic op c l => exact Nat.le_of_eq (Stratum.bound_ofOperator (.logic op)).symm

variable {f : Frame} {e : Expr} {next : Token}

/-- A frame completed by something that is no tree is none either. -/
theorem complete_ne (h : ∀ t : Tree, e ≠ t.expr) (t : Tree) : f.complete next e ≠ t.expr := by
  intro ht
  cases f <;> cases t <;> simp only [complete, Tree.expr, reduceCtorEq] at ht
  case group.group => simp at ht
  case unary.unary t' => exact h t' (Expr.unary.inj ht).2.2
  case binary.binary _ t' => exact h t' (Expr.binary.inj ht).2.2.2
  case logic.logic _ t' => exact h t' (Expr.logic.inj ht).2.2.2

/-- A frame completed by an operand that its floor admits is a tree of its stratum. -/
theorem conforms_complete {s : Stratum} (hf : f.Sound) (he : Conforms s e)
    (hfloor : f.floor ≤ s.rank) : Conforms f.stratum (f.complete next e) := by
  intro t ht
  cases f <;> cases t <;> simp only [complete, Tree.expr, reduceCtorEq] at ht
  case group.group => simp at ht
  case unary.unary t' =>
    obtain ⟨rfl, rfl, rfl⟩ := Expr.unary.inj ht
    exact .sign (mem_signs_iff.mpr ⟨hf, rfl⟩) ((he t' rfl).loosen hfloor)
  case binary.binary l r =>
    obtain ⟨rfl, rfl, rfl, rfl⟩ := Expr.binary.inj ht
    refine .operator hf.1 (hf.2 l rfl) ((he r rfl).loosen ?_)
    rwa [Stratum.rank_right]
  case logic.logic l r =>
    obtain ⟨rfl, rfl, rfl, rfl⟩ := Expr.logic.inj ht
    refine .operator hf.1 (hf.2 l rfl) ((he r rfl).loosen ?_)
    rwa [Stratum.rank_right]

end Frame

/-- The frames begin as the grammar says, and what each becomes is admitted by the floor of the one
around it. -/
def Nested : List Frame → Prop
  | [] => True
  | f :: fs => f.Sound ∧ floorOf fs ≤ f.stratum.rank ∧ Nested fs

/-- The cells that the frames hold, from the outermost to the innermost. -/
def held : List Frame → List Cell
  | [] => []
  | f :: fs => held fs ++ f.cells

/-- An operand may stand in the innermost frame, before `rest`: it is a tree of a stratum that the
floor admits, and whose operators do not come next. -/
def Fits (rest : List Cell) (fs : List Frame) (e : Expr) : Prop :=
  ∃ s, Conforms s e ∧ floorOf fs ≤ s.rank ∧ Ends s.bound rest

section Fits

variable {rest : List Cell} {f : Frame} {fs : List Frame} {e : Expr} {finish : Token}

/-- No frame asks for more than the operand of a unary operator. -/
theorem floorOf_le (fs : List Frame) : floorOf fs ≤ Precedence.unary.rank := by
  rcases fs with _ | ⟨f, fs⟩
  · decide
  · refine Nat.le_trans f.floor_le_bound ?_
    cases f.stratum <;> decide

/-- No operator between operands continues the operand of a unary one. -/
theorem ends_unary (rest : List Cell) : Ends Precedence.unary.rank rest := by
  rintro c - op -
  rcases op with op | op <;> cases op <;> decide

/-- An operand of the tightest stratum may stand anywhere. -/
theorem fits_of_primary (h : Conforms .primary e) : Fits rest fs e :=
  ⟨.primary, h, Nat.le_trans (floorOf_le fs) (by decide), ends_unary rest⟩

/-- A completed frame may stand in the frame around it. -/
theorem fits_complete (hfs : Nested (f :: fs)) (he : Fits rest (f :: fs) e)
    (hstop : (∀ t : Tree, e ≠ t.expr) ∨ Ends f.floor rest) (next : Token) :
    Fits rest fs (f.complete next e) := by
  rcases hstop with hno | hends
  · exact fits_of_primary (conforms_of_ne (Frame.complete_ne hno) _)
  · obtain ⟨s, hs, hfloor, -⟩ := he
    exact ⟨f.stratum, Frame.conforms_complete hfs.1 hs hfloor, hfs.2.1,
      hends.mono f.floor_le_bound⟩

/-- What may stand in a frame is an expression, of the loosest stratum at least. -/
theorem Fits.conforms_or (h : Fits rest fs e) : Conforms .or e := by
  obtain ⟨s, hs, -, -⟩ := h
  exact hs.loosen (by cases s <;> decide)

/-- At the end of the source the frames become one tree, if they become a tree. -/
theorem finishAll_sound (hfs : Nested fs) (he : Fits [] fs e) :
    Conforms .or (finishAll finish e fs) ∧ (finishAll finish e fs).cells = held fs ++ e.cells := by
  induction fs generalizing e with
  | nil => exact ⟨he.conforms_or, rfl⟩
  | cons f fs ih =>
    have hcomplete := ih hfs.2.2 (fits_complete hfs he (.inr (ends_nil _)) finish)
    rw [f.cells_complete, ← List.append_assoc] at hcomplete
    exact hcomplete

/-- Frames completed around something that is no tree become none. -/
theorem finishAll_ne (h : ∀ t : Tree, e ≠ t.expr) (t : Tree) : finishAll finish e fs ≠ t.expr := by
  induction fs generalizing e with
  | nil => exact h t
  | cons f fs ih => exact ih (Frame.complete_ne h)

end Fits

/-- What the token after an operand leads to is as the grammar says, and holds the cells `taken`. -/
def Settled.Sound (next : Token) (taken : List Cell) : Settled → Prop
  | shift op e fs =>
    Operator.ofKind? next.kind = some op ∧ Conforms (.left op) e ∧ floorOf fs ≤ op.rank ∧
      Nested fs ∧ held fs ++ e.cells = taken
  | close paren e fs =>
    next.kind = .rightParen ∧ paren.token.kind = .leftParen ∧ Conforms .or e ∧ Nested fs ∧
      held fs ++ paren :: e.cells = taken
  | done e => Conforms .or e ∧ e.cells = taken

section Sound

variable {finish : Token} {c : Cell} {cs : List Cell} {open_ : Bool} {e : Expr} {fs : List Frame}

/-- An operator that continues the operand takes it as the grammar says. -/
theorem shift_sound {op : Operator} (hfs : Nested fs) (he : Fits (c :: cs) fs e)
    (h : continuing? (floorOf fs) c.token = some op) :
    (Settled.shift op e fs).Sound c.token (held fs ++ e.cells) := by
  obtain ⟨hop, hfloor⟩ := continuing?_eq_some_iff.mp h
  obtain ⟨s, hs, -, hends⟩ := he
  exact ⟨hop, hs.loosen (Stratum.rank_left_le (hends c rfl op hop)), hfloor, hfs, rfl⟩

/-- Each frame is completed as the grammar says, until one is not. -/
theorem settle_sound (hfs : Nested fs) (he : Fits (c :: cs) fs e)
    (hopen : open_ = false → ∀ t : Tree, e ≠ t.expr) :
    (settle c.token open_ e fs).Sound c.token (held fs ++ e.cells) := by
  induction fs generalizing open_ e with
  | nil =>
    rw [settle]
    split
    · rename_i op hcont
      split at hcont
      · exact shift_sound hfs he hcont
      · cases hcont
    · exact ⟨he.conforms_or, rfl⟩
  | cons f fs ih =>
    cases hcont : if open_ then continuing? f.floor c.token else none with
    | some op =>
      cases open_ with
      | false => cases hcont
      | true =>
        have hop : continuing? (floorOf (f :: fs)) c.token = some op := hcont
        rw [settle_of_continuing hop]
        exact shift_sound hfs he hop
    | none =>
      by_cases hclose : (∃ paren, f = .group paren) ∧ c.token.kind = .rightParen
      · obtain ⟨⟨paren, rfl⟩, hkind⟩ := hclose
        rw [settle_close hkind]
        refine ⟨hkind, hfs.1, he.conforms_or, hfs.2.2, ?_⟩
        simp [held, Frame.cells]
      · rw [settle_complete hcont fun paren hf hkind => hclose ⟨⟨paren, hf⟩, hkind⟩, held,
          List.append_assoc, ← f.cells_complete c.token]
        refine ih hfs.2.2 (fits_complete hfs he ?_ c.token) nofun
        cases open_ with
        | false => exact .inl (hopen rfl)
        | true =>
          right
          intro d hd
          obtain rfl : c = d := by simpa using hd
          exact continuing?_eq_none_iff.mp hcont

/-- The cells of the operand that has just been read. -/
def Mode.cells : Mode → List Cell
  | operand => []
  | after _ e => e.cells

/-- Where the reader stands after an operand, that may stand there. After a gap it is no tree. -/
def Mode.Sound (rest : List Cell) (fs : List Frame) : Mode → Prop
  | operand => True
  | after open_ e => Fits rest fs e ∧ (open_ = false → ∀ t : Tree, e ≠ t.expr)

/-- Where an operand is due there is nothing to ask. -/
theorem Mode.sound_operand {rest : List Cell} : operand.Sound rest fs := trivial

/-- An operand of the tightest stratum may stand where it was read. -/
theorem Mode.sound_of_primary {rest : List Cell} (h : Conforms .primary e) :
    (after true e).Sound rest fs :=
  ⟨fits_of_primary h, nofun⟩

/-- What is no tree may stand anywhere. -/
theorem Mode.sound_of_ne {rest : List Cell} (h : ∀ t : Tree, e ≠ t.expr) :
    (after open_ e).Sound rest fs :=
  ⟨fits_of_primary (conforms_of_ne h _), fun _ => h⟩

/-- A literal is an expression of the tightest stratum. -/
theorem conforms_literal {v : Value} (h : start c.token = .literal v) :
    Conforms .primary (.literal c v) := by
  intro t ht
  cases t <;> cases ht
  exact .literal (start_eq_literal_iff.mp h)

/-- A group around an expression is one of the tightest stratum. -/
theorem conforms_group {paren : Cell} (hl : paren.token.kind = .leftParen) (he : Conforms .or e)
    (hr : c.token.kind = .rightParen) : Conforms .primary (.group paren e (.closed c)) := by
  intro t ht
  cases t <;> cases ht
  exact .group hl (he _ rfl) hr

/-- An operand that is missing is no tree. -/
theorem missing_ne (c : Cell) (t : Tree) : missing c ≠ t.expr := by
  cases t <;> exact nofun

/-- If the reader gives a tree, then from what it held and consumed that tree derives. -/
theorem parseFrom_sound {cells rest : List Cell} {mode : Mode} {t : Tree} (hfs : Nested fs)
    (hmode : mode.Sound cells fs) (h : parseFrom finish cells mode fs = (t.expr, rest)) :
    Derives .or t.tokens t ∧ t.expr.cells ++ rest = held fs ++ mode.cells ++ cells := by
  induction cells generalizing mode fs with
  | nil =>
    cases mode with
    | operand => exact absurd (congrArg Prod.fst h) (finishAll_ne (missing_ne _) t)
    | after open_ e =>
      obtain ⟨he, rfl⟩ := Prod.mk.inj h
      obtain ⟨hderives, hcells⟩ := finishAll_sound hfs hmode.1
      exact ⟨hderives t he, by rw [← he, hcells]; rfl⟩
  | cons c cs ih =>
    cases mode with
    | operand =>
      rw [parseFrom] at h
      split at h <;> rename_i hstart
      · obtain ⟨hderives, hcells⟩ := ih hfs (Mode.sound_of_primary (conforms_literal hstart)) h
        exact ⟨hderives, by simp [hcells, Mode.cells, Expr.cells]⟩
      · have hgroup : Nested (.group c :: fs) :=
          ⟨start_eq_group_iff.mp hstart, Nat.le_trans (floorOf_le fs) (Nat.le_add_right 8 2), hfs⟩
        obtain ⟨hderives, hcells⟩ := ih hgroup Mode.sound_operand h
        exact ⟨hderives, by simp [hcells, Mode.cells, held, Frame.cells]⟩
      · have hunary : Nested (.unary _ c :: fs) :=
          ⟨start_eq_unary_iff.mp hstart, floorOf_le fs, hfs⟩
        obtain ⟨hderives, hcells⟩ := ih hunary Mode.sound_operand h
        exact ⟨hderives, by simp [hcells, Mode.cells, held, Frame.cells]⟩
      · obtain ⟨hderives, hcells⟩ := ih hfs (Mode.sound_of_ne (missing_ne c)) h
        exact ⟨hderives, by simp [hcells, Mode.cells, Expr.cells]⟩
    | after open_ e =>
      have hsettle := settle_sound hfs hmode.1 hmode.2
      rw [parseFrom] at h
      split at h <;> rename_i heq <;> rw [heq] at hsettle
      · obtain ⟨hop, hleft, hfloor, hfs', htaken⟩ := hsettle
        have hnested : Nested (.ofOperator _ c _ :: _) :=
          ⟨Frame.sound_ofOperator hop hleft, by
            rwa [Frame.stratum_ofOperator, Stratum.rank_ofOperator], hfs'⟩
        obtain ⟨hderives, hcells⟩ := ih hnested Mode.sound_operand h
        refine ⟨hderives, ?_⟩
        rw [hcells, Mode.cells, Mode.cells, ← htaken, held, Frame.cells_ofOperator]
        simp
      · obtain ⟨hr, hl, hinner, hfs', htaken⟩ := hsettle
        obtain ⟨hderives, hcells⟩ :=
          ih hfs' (Mode.sound_of_primary (conforms_group hl hinner hr)) h
        refine ⟨hderives, ?_⟩
        rw [hcells, Mode.cells, Mode.cells, ← htaken, Expr.cells, Closing.cells]
        simp
      · obtain ⟨he, rfl⟩ := Prod.mk.inj h
        obtain ⟨hconforms, htaken⟩ := hsettle
        exact ⟨hconforms t he, by rw [← he, htaken, Mode.cells]⟩

end Sound

/-- If the expression that is read is a tree, then it derives from what was consumed. -/
theorem parse_sound {finish : Token} {cells rest : List Cell} {t : Tree}
    (h : parse finish cells = (t.expr, rest)) :
    Derives .or t.tokens t ∧ cells = t.tokens.map .plain ++ rest := by
  have hnil : Nested [] := trivial
  obtain ⟨hderives, hcells⟩ := parseFrom_sound hnil Mode.sound_operand h
  refine ⟨hderives, ?_⟩
  rw [← cells_expr, hcells]
  rfl

/-- What is derived is read, up to a token that is no operator or to the end. -/
theorem parse_of_derives (finish : Token) {ts : List Token} {rest : List Cell} {t : Tree}
    (h : Derives .or ts t) (hrest : ∀ c ∈ rest.head?, Operator.ofKind? c.token.kind = none) :
    parse finish (ts.map .plain ++ rest) = (t.expr, rest) := by
  have hends : ∀ n, Ends n rest := by
    cases rest with
    | nil => exact ends_nil
    | cons c cs => exact fun n => ends_of_ofKind? (hrest c rfl)
  rw [parse, parseFrom_of_derives h (by decide) (hends _)]
  cases rest with
  | nil => rfl
  | cons c cs =>
    have hnone : continuing? Precedence.assignment.rank c.token = none :=
      continuing?_eq_none_iff.mpr (hends _ c rfl)
    simp only [parseFrom, settle, if_true, hnone]

end Expr

end Lox
