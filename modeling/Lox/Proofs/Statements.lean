import Lox.Proofs.Emitted
import Lox.Proofs.Reading

/-!
# Reading statements

A statement that is read without a complaint is a statement of the grammar, and the other way round.

* `exists_tree_of_findThen` and `complaint?_findThen`: an expression is free of complaints just
  when it is a tree whose literals have slots and whose right operands can be jumped over.
* `sentences_of_parse`: a statement without complaints is derived from the tokens it was read from.
* `exists_parse_of_sentences`: the first statement of a derived program is the one that is read.
* `sentences_unique`: a text is a program in one way only.
-/

namespace Lox

open Grammar

/-! ## Expressions without complaints -/

/-- A literal's value is not left without a slot. -/
def Pool.Admits (pool : Pool) (v : Value) : Prop :=
  pool.lacks v = false

/-- Every literal of a tree is as `slot` asks, and every right operand of a logical operator can be
jumped over. -/
structure Tree.Fits (slot : Value → Prop) (t : Tree) : Prop where
  slots : ∀ v ∈ t.literals, slot v
  leaps : ∀ r ∈ t.guarded, r.expr.size < Expr.maxLeap

namespace Tree

variable {slot : Value → Prop} {t : Token}

/-- A literal fits if its value has a slot. -/
theorem fits_literal_iff {v : Value} : (literal t v).Fits slot ↔ slot v := by
  constructor
  · exact fun h => h.slots v List.mem_cons_self
  · exact fun h => ⟨fun w hw => List.mem_singleton.mp hw ▸ h, nofun⟩

/-- A group fits if what it encloses does. -/
theorem fits_group_iff {l r : Token} {e : Tree} : (group l e r).Fits slot ↔ e.Fits slot :=
  ⟨fun h => ⟨h.slots, h.leaps⟩, fun h => ⟨h.slots, h.leaps⟩⟩

/-- An operator before its operand fits if the operand does. -/
theorem fits_unary_iff {op : UnaryOp} {e : Tree} : (unary op t e).Fits slot ↔ e.Fits slot :=
  ⟨fun h => ⟨h.slots, h.leaps⟩, fun h => ⟨h.slots, h.leaps⟩⟩

/-- An operator between its operands fits if they both do. -/
theorem fits_binary_iff {op : BinaryOp} {l r : Tree} :
    (binary op t l r).Fits slot ↔ l.Fits slot ∧ r.Fits slot := by
  constructor
  · intro h
    exact ⟨⟨fun v hv => h.slots v (List.mem_append_left _ hv),
        fun u hu => h.leaps u (List.mem_append_left _ hu)⟩,
      ⟨fun v hv => h.slots v (List.mem_append_right _ hv),
        fun u hu => h.leaps u (List.mem_append_right _ hu)⟩⟩
  · rintro ⟨hl, hr⟩
    exact ⟨fun v hv => (List.mem_append.mp hv).elim (hl.slots v) (hr.slots v),
      fun u hu => (List.mem_append.mp hu).elim (hl.leaps u) (hr.leaps u)⟩

/-- A logical operator fits if its operands do and the right one can be leapt over. -/
theorem fits_logic_iff {op : LogicOp} {l r : Tree} :
    (logic op t l r).Fits slot ↔ (l.Fits slot ∧ r.Fits slot) ∧ r.expr.size < Expr.maxLeap := by
  -- apart from the right operand itself, a logical operator asks for what any other does
  have hsame : (logic op t l r).Fits slot ↔
      (binary .add t l r).Fits slot ∧ r.expr.size < Expr.maxLeap := by
    constructor
    · exact fun h => ⟨⟨h.slots, fun u hu => h.leaps u (List.mem_cons_of_mem _ hu)⟩,
        h.leaps r List.mem_cons_self⟩
    · rintro ⟨h, hleap⟩
      refine ⟨h.slots, fun u hu => ?_⟩
      rcases List.mem_cons.mp hu with rfl | hu
      · exact hleap
      · exact h.leaps u hu
  rw [hsame, fits_binary_iff]

end Tree

/-- Only cells without strays are without complaint. -/
theorem Cell.complaint?_eq_none_iff {c : Cell} : c.complaint? = none ↔ ∃ t, c = .plain t := by
  obtain ⟨t, strays⟩ := c
  cases strays with
  | nil => exact ⟨fun _ => ⟨t, rfl⟩, fun _ => rfl⟩
  | cons u us => exact ⟨nofun, fun ⟨v, hv⟩ => by simp [plain] at hv⟩

@[simp] theorem Cell.complaint?_plain (t : Token) : (Cell.plain t).complaint? = none := rfl

namespace Expr

/-- A literal is complained about only for want of a slot. -/
theorem literalComplaint?_eq_none_iff {pool : Pool} (c : Cell) {v : Value} :
    literalComplaint? pool c v = none ↔ pool.lacks v = false := by
  unfold literalComplaint?
  split <;> simp_all

/-- A leap is complained about only if it is too long. -/
theorem leapComplaint?_eq_none_iff (r : Expr) {n : Nat} :
    leapComplaint? r n = none ↔ n < maxLeap := by
  unfold leapComplaint?
  split
  · exact ⟨nofun, fun hlt => absurd hlt (by omega)⟩
  · exact ⟨fun _ => by omega, fun _ => rfl⟩

/-- There is no complaint after another one only if there is none in either place. -/
theorem Finding.after_eq_none_iff {k : Finding} {d? : Option Diagnostic} :
    (k.after d?).complaint? = none ↔ d? = none ∧ k.complaint? = none := by
  simp [after]

/-- The expression of a tree has the literals of the tree. -/
theorem literals_expr (t : Tree) : t.expr.literals = t.literals := by
  induction t with
  | literal t v => rfl
  | group l e r ih => exact ih
  | unary op t e ih => exact ih
  | binary op t l r ihl ihr | logic op t l r ihl ihr =>
    rw [Tree.expr, literals, literalsThen, literalsThen_eq, Tree.literals, ihl, ← ihr]
    rfl

variable {pool : Pool}

/-- There is nothing to complain about in a tree that fits. -/
theorem complaint?_findThen {t : Tree} (h : t.Fits pool.Admits) (k : Finding) :
    (t.expr.findThen pool k).complaint? = k.complaint? := by
  induction t generalizing k with
  | literal t v =>
    have hslot := (literalComplaint?_eq_none_iff (.plain t)).mpr (Tree.fits_literal_iff.mp h)
    simp [Tree.expr, findThen, hslot]
  | group l e r ih =>
    simp [Tree.expr, findThen, Finding.after, ih (Tree.fits_group_iff.mp h), closingComplaint?]
  | unary op t e ih =>
    simp [Tree.expr, findThen, Finding.after, ih (Tree.fits_unary_iff.mp h)]
  | binary op t l r ihl ihr =>
    obtain ⟨hl, hr⟩ := Tree.fits_binary_iff.mp h
    simp [Tree.expr, findThen, Finding.after, ihl hl, ihr hr]
  | logic op t l r ihl ihr =>
    obtain ⟨⟨hl, hr⟩, hleap⟩ := Tree.fits_logic_iff.mp h
    have hleap' := (leapComplaint?_eq_none_iff r.expr).mpr hleap
    have hsize : (r.expr.findThen pool {}).size = r.expr.size := size_findThen ..
    simp [Tree.expr, findThen, ihl hl, ihr hr, hsize, hleap']

/-- An expression in which there is nothing to complain about is a tree that fits. -/
theorem exists_tree_of_findThen {e : Expr} {k : Finding}
    (h : (e.findThen pool k).complaint? = none) :
    (∃ t : Tree, e = t.expr ∧ t.Fits pool.Admits) ∧ k.complaint? = none := by
  induction e generalizing k with
  | literal c v =>
    simp only [findThen, Option.orElse_eq_orElse, Option.orElse_eq_or, Option.or_eq_none_iff] at h
    obtain ⟨hcell, hslot, hk⟩ := h
    obtain ⟨t, rfl⟩ := Cell.complaint?_eq_none_iff.mp hcell
    have hslot' := (literalComplaint?_eq_none_iff _).mp hslot
    exact ⟨⟨.literal t v, rfl, Tree.fits_literal_iff.mpr hslot'⟩, hk⟩
  | missing c => simp [findThen] at h
  | group c e closing ih =>
    obtain ⟨hcell, hinner⟩ := Finding.after_eq_none_iff.mp h
    obtain ⟨⟨e, rfl, he⟩, hafter⟩ := ih hinner
    obtain ⟨hclosing, hk⟩ := Finding.after_eq_none_iff.mp hafter
    obtain ⟨t, rfl⟩ := Cell.complaint?_eq_none_iff.mp hcell
    cases closing with
    | unclosed before => cases hclosing
    | closed paren =>
      obtain ⟨u, rfl⟩ := Cell.complaint?_eq_none_iff.mp hclosing
      exact ⟨⟨.group t e u, rfl, Tree.fits_group_iff.mpr he⟩, hk⟩
  | unary op c e ih =>
    obtain ⟨hcell, hinner⟩ := Finding.after_eq_none_iff.mp h
    obtain ⟨⟨e, rfl, he⟩, hk⟩ := ih hinner
    obtain ⟨t, rfl⟩ := Cell.complaint?_eq_none_iff.mp hcell
    exact ⟨⟨.unary op t e, rfl, Tree.fits_unary_iff.mpr he⟩, hk⟩
  | binary op c l r ihl ihr =>
    obtain ⟨⟨l, rfl, hl⟩, hafter⟩ := ihl h
    obtain ⟨hcell, hright⟩ := Finding.after_eq_none_iff.mp hafter
    obtain ⟨⟨r, rfl, hr⟩, hk⟩ := ihr hright
    obtain ⟨t, rfl⟩ := Cell.complaint?_eq_none_iff.mp hcell
    exact ⟨⟨.binary op t l r, rfl, Tree.fits_binary_iff.mpr ⟨hl, hr⟩⟩, hk⟩
  | logic op c l r ihl ihr =>
    obtain ⟨⟨l, rfl, hl⟩, hafter⟩ := ihl h
    simp only [Option.orElse_eq_orElse, Option.orElse_eq_or, Option.or_eq_none_iff] at hafter
    obtain ⟨hcell, hright, hleap, hk⟩ := hafter
    obtain ⟨⟨r, rfl, hr⟩, -⟩ := ihr hright
    obtain ⟨t, rfl⟩ := Cell.complaint?_eq_none_iff.mp hcell
    have hsize : (r.expr.findThen pool {}).size = r.expr.size := size_findThen ..
    rw [hsize, leapComplaint?_eq_none_iff] at hleap
    exact ⟨⟨.logic op t l r, rfl, Tree.fits_logic_iff.mpr ⟨⟨hl, hr⟩, hleap⟩⟩, hk⟩

end Expr

/-! ## Statements without complaints -/

/-- The statement that a sentence is read as. -/
def Grammar.Sentence.statement : Sentence → Statement
  | print w e s => ⟨some (.plain w), e.expr, .semicolon (.plain s)⟩
  | expr e (some s) => ⟨none, e.expr, .semicolon (.plain s)⟩
  | expr e none => ⟨none, e.expr, .atEnd⟩

namespace Statement

variable {pool : Pool} {finish : Token}

/-- Different sentences are read as different statements. -/
theorem statement_injective {σ τ : Sentence} (h : σ.statement = τ.statement) : σ = τ := by
  rcases σ with ⟨w, e, s⟩ | ⟨e, _ | s⟩ <;> rcases τ with ⟨w', e', s'⟩ | ⟨e', _ | s'⟩ <;>
    simp only [Sentence.statement, Statement.mk.injEq, Option.some.injEq, Ending.semicolon.injEq,
      reduceCtorEq, false_and, and_false, true_and, and_true] at h
  · rw [Cell.plain_injective h.1, Tree.expr_injective h.2.1, Cell.plain_injective h.2.2]
  · rw [Tree.expr_injective h]
  · rw [Tree.expr_injective h.1, Cell.plain_injective h.2]

/-- The expression of a statement is that of its tree. -/
theorem expr_statement (σ : Sentence) : σ.statement.expr = σ.tree.expr := by
  rcases σ with ⟨w, e, s⟩ | ⟨e, _ | s⟩ <;> rfl

/-- A statement whose tree fits is not complained about. -/
theorem complaint?_statement {σ : Sentence} (h : σ.tree.Fits pool.Admits) :
    σ.statement.complaint? pool = none := by
  rcases σ with ⟨w, e, s⟩ | ⟨e, _ | s⟩ <;>
    simp [complaint?, Sentence.statement, Expr.complaint?_findThen (t := e) h, endComplaint?]

/-- A statement about which there is nothing to complain is a sentence that fits. The end of the
source does not end a `print`. -/
theorem exists_sentence {s : Statement} (h : s.complaint? pool = none)
    (hend : s.print?.isSome → s.ending ≠ .atEnd) :
    ∃ σ : Sentence, s = σ.statement ∧ σ.tree.Fits pool.Admits := by
  obtain ⟨print?, e, ending⟩ := s
  simp only [complaint?, Option.orElse_eq_orElse, Option.orElse_eq_or, Option.or_eq_none_iff] at h
  obtain ⟨hprint, hfind⟩ := h
  obtain ⟨⟨e, rfl, he⟩, hending⟩ := Expr.exists_tree_of_findThen hfind
  cases ending with
  | unended before => cases hending
  | atEnd =>
    cases print? with
    | none => exact ⟨.expr e none, rfl, he⟩
    | some c => exact absurd rfl (hend rfl)
  | semicolon c =>
    obtain ⟨t, rfl⟩ := Cell.complaint?_eq_none_iff.mp hending
    cases print? with
    | none => exact ⟨.expr e (some t), rfl, he⟩
    | some c =>
      obtain ⟨w, rfl⟩ := Cell.complaint?_eq_none_iff.mp hprint
      exact ⟨.print w e t, rfl, he⟩

/-! ## Statements and their tokens -/

/-- A statement that begins with `print` has its expression after that. -/
theorem parse_print {c : Cell} (h : c.token.kind = .kwPrint) (cs : List Cell) :
    parse finish c cs =
      (⟨some c, (Expr.parse finish cs).1, (readEnding finish true (Expr.parse finish cs).2).1⟩,
        (readEnding finish true (Expr.parse finish cs).2).2) := by
  simp [parse, h]

/-- Any other statement begins with its expression. -/
theorem parse_expr {c : Cell} (h : c.token.kind ≠ .kwPrint) (cs : List Cell) :
    parse finish c cs =
      (⟨none, (Expr.parse finish (c :: cs)).1,
          (readEnding finish false (Expr.parse finish (c :: cs)).2).1⟩,
        (readEnding finish false (Expr.parse finish (c :: cs)).2).2) := by
  simp [parse, h]

/-- A semicolon ends a statement, and is taken. -/
theorem readEnding_semicolon {c : Cell} (h : c.token.kind = .semicolon) (print : Bool)
    (cs : List Cell) : readEnding finish print (c :: cs) = (.semicolon c, cs) := by
  simp [readEnding, semicolon?, h]

/-- Any other token leaves a statement without its end, and is not taken. -/
theorem readEnding_of_ne {c : Cell} (h : c.token.kind ≠ .semicolon) (print : Bool)
    (cs : List Cell) : readEnding finish print (c :: cs) = (.unended c.token, c :: cs) := by
  simp [readEnding, semicolon?, h, upcoming]

/-- All that the end of a statement can be. -/
theorem readEnding_cases (finish : Token) (print : Bool) (cells : List Cell) :
    (∃ c cs, cells = c :: cs ∧ c.token.kind = .semicolon ∧
        readEnding finish print cells = (.semicolon c, cs)) ∨
      (cells = [] ∧ print = false ∧ readEnding finish print cells = (.atEnd, [])) ∨
      ∃ t, readEnding finish print cells = (.unended t, cells) := by
  rcases cells with _ | ⟨c, cs⟩
  · cases print
    · exact .inr (.inl ⟨rfl, rfl, rfl⟩)
    · exact .inr (.inr ⟨finish, rfl⟩)
  · by_cases h : c.token.kind = .semicolon
    · exact .inl ⟨c, cs, rfl, h, readEnding_semicolon h print cs⟩
    · exact .inr (.inr ⟨c.token, readEnding_of_ne h print cs⟩)

/-- The end of the source does not end a `print`. -/
theorem ending_parse (c : Cell) (cs : List Cell) :
    (parse finish c cs).1.print?.isSome → (parse finish c cs).1.ending ≠ .atEnd := by
  by_cases h : c.token.kind = .kwPrint
  · rw [parse_print h]
    rcases readEnding_cases finish true (Expr.parse finish cs).2 with
      ⟨_, _, _, _, heq⟩ | ⟨_, hfalse, _⟩ | ⟨_, heq⟩
    · simp [heq]
    · cases hfalse
    · simp [heq]
  · rw [parse_expr h]
    nofun

end Statement

namespace Grammar

/-- An expression begins with a token that begins an operand. -/
theorem Derives.exists_start {s : Stratum} {ts : List Token} {e : Tree} (h : Derives s ts e) :
    ∃ t us, ts = t :: us ∧ Expr.start t ≠ .nothing := by
  induction h using Derives.rec_operator with
  | operand s ts e _ ih => exact ih
  | operator op t ts us l r _ _ _ ihl _ =>
    obtain ⟨u, vs, rfl, hu⟩ := ihl
    exact ⟨u, vs ++ t :: us, rfl, hu⟩
  | sign op t ts e hop _ _ => exact ⟨t, ts, rfl, by simp [start_eq_unary_iff.mpr hop]⟩
  | literal t v h => exact ⟨t, [], rfl, by simp [start_eq_literal_iff.mpr h]⟩
  | group l r ts e hl _ _ _ => exact ⟨l, ts ++ [r], rfl, by simp [start_eq_group_iff.mpr hl]⟩

/-- A statement that begins with an expression is read as one. -/
theorem Derives.parse_eq {ts : List Token} {e : Tree} (h : Derives .or ts e) (finish : Token)
    {rest : List Cell} (hrest : ∀ c ∈ rest.head?, Operator.ofKind? c.token.kind = none) :
    ∃ c cs, ts.map .plain ++ rest = c :: cs ∧ Statement.parse finish c cs =
      (⟨none, e.expr, (Statement.readEnding finish false rest).1⟩,
        (Statement.readEnding finish false rest).2) := by
  have hread := Expr.parse_of_derives finish h hrest
  obtain ⟨t, us, rfl, ht⟩ := h.exists_start
  have hprint : (Cell.plain t).token.kind ≠ .kwPrint := by
    intro hk
    rw [Cell.token_plain] at hk
    exact ht (by simp [Expr.start, hk, UnaryOp.ofKind?])
  refine ⟨.plain t, us.map .plain ++ rest, rfl, ?_⟩
  rw [List.map_cons, List.cons_append] at hread
  rw [Statement.parse_expr hprint, hread]

/-- Only the empty program has no tokens. -/
theorem Sentences.eq_nil_iff {ts : List Token} {p : List Sentence} (h : Sentences ts p) :
    ts = [] ↔ p = [] := by
  cases h with
  | nil => simp
  | print => simp
  | expr => simp
  | last h =>
    obtain ⟨t, us, rfl, -⟩ := h.exists_start
    simp

/-- The first statement of a derived program is the one that is read. -/
theorem exists_parse_of_sentences (finish : Token) {ts : List Token} {σ : Sentence}
    {p : List Sentence} (h : Sentences ts (σ :: p)) :
    ∃ c cs us, ts.map .plain = c :: cs ∧
      Statement.parse finish c cs = (σ.statement, us.map .plain) ∧ Sentences us p := by
  cases h with
  | @print w s ts us e _ hw he hs hp =>
    refine ⟨.plain w, _, us, rfl, ?_, hp⟩
    have hread : Expr.parse finish ((ts ++ s :: us).map .plain) =
        (e.expr, .plain s :: us.map .plain) := by
      rw [List.map_append, List.map_cons]
      exact Expr.parse_of_derives finish he (by simp [hs, Operator.ofKind?])
    rw [Statement.parse_print hw, hread, Statement.readEnding_semicolon hs]
    rfl
  | @expr s ts us e _ he hs hp =>
    have hrest : ∀ c ∈ (Cell.plain s :: us.map .plain).head?,
        Operator.ofKind? c.token.kind = none := by
      simp [hs, Operator.ofKind?]
    obtain ⟨c, cs, hcells, hparse⟩ := he.parse_eq finish hrest
    refine ⟨c, cs, us, by rw [← hcells, List.map_append, List.map_cons], ?_, hp⟩
    rw [hparse, Statement.readEnding_semicolon hs]
    rfl
  | last he =>
    have hrest : ∀ c ∈ ([] : List Cell).head?, Operator.ofKind? c.token.kind = none :=
      fun _ hc => by cases hc
    obtain ⟨c, cs, hcells, hparse⟩ := he.parse_eq finish hrest
    exact ⟨c, cs, [], by rw [← hcells, List.append_nil], hparse, .nil⟩

/-- A text is a program in one way only. -/
theorem sentences_unique {ts : List Token} {p q : List Sentence} (hp : Sentences ts p)
    (hq : Sentences ts q) : p = q := by
  induction p generalizing ts q with
  | nil => exact (hq.eq_nil_iff.mp (hp.eq_nil_iff.mpr rfl)).symm
  | cons σ p ih =>
    cases q with
    | nil => exact hp.eq_nil_iff.mp (hq.eq_nil_iff.mpr rfl)
    | cons τ q =>
      obtain ⟨c, cs, us, hcells, hparse, hus⟩ := exists_parse_of_sentences (.atEnd 0) hp
      obtain ⟨c', cs', us', hcells', hparse', hus'⟩ := exists_parse_of_sentences (.atEnd 0) hq
      obtain ⟨rfl, rfl⟩ := List.cons.inj (hcells.symm.trans hcells')
      obtain ⟨hστ, hrest⟩ := Prod.mk.inj (hparse.symm.trans hparse')
      obtain rfl := Statement.statement_injective hστ
      obtain rfl := (List.map_inj_right fun _ _ => Cell.plain_injective).mp hrest
      rw [ih hus hus']

/-- A statement without complaints is derived from the tokens it was read from. -/
theorem sentences_of_parse {finish : Token} {c : Cell} {cs : List Cell} {σ : Sentence}
    {us : List Token} {p : List Sentence}
    (h : Statement.parse finish c cs = (σ.statement, us.map .plain)) (hp : Sentences us p) :
    ∃ ts, c :: cs = ts.map .plain ∧ Sentences ts (σ :: p) := by
  by_cases hprint : c.token.kind = .kwPrint
  · rw [Statement.parse_print hprint] at h
    rcases σ with ⟨w, e, s⟩ | ⟨e, _ | s⟩ <;>
      simp only [Sentence.statement, Prod.mk.injEq, Statement.mk.injEq, Option.some.injEq,
        reduceCtorEq, false_and] at h
    obtain ⟨⟨rfl, he, hending⟩, hrest⟩ := h
    rcases Statement.readEnding_cases finish true (Expr.parse finish cs).2 with
      ⟨d, ds, hcells, hd, heq⟩ | ⟨-, hfalse, -⟩ | ⟨_, heq⟩
    · obtain rfl : d = .plain s := by simpa [heq] using hending
      obtain rfl : ds = us.map .plain := by simpa [heq] using hrest
      obtain ⟨hderives, rfl⟩ := Expr.parse_sound (Prod.ext he hcells)
      exact ⟨w :: (e.tokens ++ s :: us), by simp, .print hprint hderives hd hp⟩
    · cases hfalse
    · simp [heq] at hending
  · rw [Statement.parse_expr hprint] at h
    rcases Statement.readEnding_cases finish false (Expr.parse finish (c :: cs)).2 with
      ⟨d, ds, hcells, hd, heq⟩ | ⟨hcells, -, heq⟩ | ⟨_, heq⟩ <;> rw [heq] at h <;>
      rcases σ with ⟨w, e, s⟩ | ⟨e, _ | s⟩ <;>
      simp only [Sentence.statement, Prod.mk.injEq, Statement.mk.injEq, Ending.semicolon.injEq,
        true_and, and_true, reduceCtorEq, false_and, and_false] at h
    · obtain ⟨⟨he, rfl⟩, rfl⟩ := h
      obtain ⟨hderives, hcells⟩ := Expr.parse_sound (Prod.ext he hcells)
      exact ⟨e.tokens ++ s :: us, by simp [hcells], .expr hderives hd hp⟩
    · obtain ⟨he, hus⟩ := h
      obtain rfl : us = [] := List.map_eq_nil_iff.mp hus.symm
      obtain rfl := hp.eq_nil_iff.mp rfl
      obtain ⟨hderives, hcells⟩ := Expr.parse_sound (Prod.ext he hcells)
      exact ⟨e.tokens, by simp [hcells], .last hderives⟩

end Grammar

end Lox
