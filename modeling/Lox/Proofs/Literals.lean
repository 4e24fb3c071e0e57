import Lox.Proofs.Discipline

/-!
# Constants are the literals

What the pool of a program holds, and what is loaded from it, is said here by the tokens of the
source alone: `Token.constant?` is the value of a number or of a text.

* `Sentences.filter_literals`: the constants among the literals of a program are the values of its
  tokens.
* `Pool.addAll_eq_eraseDupsBy`: a pool in which all of them find a slot is the list of them, without
  those that are equal to an earlier one.
* `loaded_sentencesThen`: the code of a program loads each of them once, from left to right.

`pooled_of_compile` is what follows for the chunk of an accepted source.
-/

namespace Lox

open Grammar

/-! ## The values of tokens -/

/-- The value of a number or of a text. -/
def Token.constant? (t : Token) : Option Value :=
  match t.kind with
  | .number => some (.number (Number.ofLiteral t.lexeme))
  | .text => some (.text (Expr.unquoted t.lexeme))
  | _ => none

/-- A token that is neither a number nor a text has no value. -/
theorem Token.constant?_eq_none {t : Token} (h : t.kind ≠ .number ∧ t.kind ≠ .text) :
    t.constant? = none := by
  unfold constant?
  split
  · exact absurd ‹_› h.1
  · exact absurd ‹_› h.2
  · rfl

namespace Grammar

variable {s : Stratum} {ts : List Token} {e : Tree} {t : Token}

/-- The value of a literal's token is that of the literal, if the literal is kept in the pool. -/
theorem Literal.constant?_eq {v : Value} (h : Literal t v) :
    t.constant? = if v.isPooled then some v else none := by
  cases h with
  | number hkind | text hkind | yes hkind | no hkind | nil hkind =>
    rw [Token.constant?, hkind]
    rfl

/-- No operator is a literal. -/
theorem Stratum.kind_ne (s : Stratum) : ∀ kind ∈
      s.chains.map Prod.fst ++ s.joins.map Prod.fst ++ s.signs.map Prod.fst,
    kind ≠ .number ∧ kind ≠ .text := by
  cases s <;> decide

/-- A binary operator has no value. -/
theorem constant?_of_chain {op : BinaryOp} (h : (t.kind, op) ∈ s.chains) : t.constant? = none := by
  apply Token.constant?_eq_none
  exact s.kind_ne _ (List.mem_append_left _ (List.mem_append_left _ (List.mem_map_of_mem h)))

/-- A logical operator has no value. -/
theorem constant?_of_join {op : LogicOp} (h : (t.kind, op) ∈ s.joins) : t.constant? = none := by
  apply Token.constant?_eq_none
  exact s.kind_ne _ (List.mem_append_left _ (List.mem_append_right _ (List.mem_map_of_mem h)))

/-- A unary operator has no value. -/
theorem constant?_of_sign {op : UnaryOp} (h : (t.kind, op) ∈ s.signs) : t.constant? = none := by
  apply Token.constant?_eq_none
  exact s.kind_ne _ (List.mem_append_right _ (List.mem_map_of_mem h))

/-- The constants among the literals of a derived tree are the values of its tokens. -/
theorem Derives.filter_literals (h : Derives s ts e) :
    e.literals.filter Value.isPooled = ts.filterMap Token.constant? := by
  induction h with
  | operand _ ih => exact ih
  | chain ht _ _ ihl ihr =>
    rw [Tree.literals, List.filter_append, ihl, ihr, List.filterMap_append,
      List.filterMap_cons_none (constant?_of_chain ht)]
  | join ht _ _ ihl ihr =>
    rw [Tree.literals, List.filter_append, ihl, ihr, List.filterMap_append,
      List.filterMap_cons_none (constant?_of_join ht)]
  | sign ht _ ih =>
    rw [Tree.literals, ih, List.filterMap_cons_none (constant?_of_sign ht)]
  | @literal t v ht =>
    rw [Tree.literals, List.filter_singleton, List.filterMap_cons, ht.constant?_eq]
    cases v.isPooled <;> rfl
  | @group l r ts e hl _ hr ih =>
    have hleft : l.constant? = none := Token.constant?_eq_none (by rw [hl]; decide)
    have hright : r.constant? = none := Token.constant?_eq_none (by rw [hr]; decide)
    rw [Tree.literals, ih, List.filterMap_cons_none hleft, List.filterMap_append,
      List.filterMap_cons_none hright, List.filterMap_nil, List.append_nil]

/-- The constants among the literals of a program are the values of its tokens. -/
theorem Sentences.filter_literals {p : List Sentence} (h : Sentences ts p) :
    (literals p).filter Value.isPooled = ts.filterMap Token.constant? := by
  have hsemicolon : ∀ t : Token, t.kind = .semicolon → t.constant? = none := by
    intro t ht
    exact Token.constant?_eq_none (by rw [ht]; decide)
  unfold literals at *
  induction h with
  | nil => rfl
  | print hw he hs _ ih =>
    rw [List.flatMap_cons, List.filter_append, ih, Sentence.tree, he.filter_literals,
      List.filterMap_cons_none (Token.constant?_eq_none (by rw [hw]; decide)),
      List.filterMap_append, List.filterMap_cons_none (hsemicolon _ hs)]
  | expr he hs _ ih =>
    rw [List.flatMap_cons, List.filter_append, ih, Sentence.tree, he.filter_literals,
      List.filterMap_append, List.filterMap_cons_none (hsemicolon _ hs)]
  | last he =>
    rw [List.flatMap_singleton, Sentence.tree, he.filter_literals]

end Grammar

/-! ## The pool -/

namespace Pool

variable {p : Pool} {v : Value} {vs : List Value}

/-- A literal is equal to one in the pool just when it is there. -/
theorem any_equals_iff (hp : Regular p) (hv : v.Regular) : p.any v.equals = true ↔ v ∈ p := by
  rw [List.any_eq_true]
  constructor
  · rintro ⟨w, hw, hequals⟩
    rw [(Value.equals_iff hv (hp w hw)).mp hequals]
    exact hw
  · intro hmem
    exact ⟨v, hmem, (Value.equals_iff hv hv).mpr rfl⟩

/-- A literal that finds a slot, although no room was left for it, was there before: a full pool
stays as it is. -/
theorem mem_of_full (hp : Regular p) (hv : v.Regular) (hlength : p.length ≤ capacity)
    (hpooled : v.isPooled = true) (hfull : v ∉ p → capacity ≤ p.length)
    (hfound : (p.addAll vs).lacks v = false) : v ∈ p := by
  by_contra hmem
  rw [addAll_of_full (Nat.le_antisymm hlength (hfull hmem))] at hfound
  have hlacks := (lacks_eq_true_iff hp hv).mpr ⟨hpooled, hmem⟩
  rw [hfound] at hlacks
  cases hlacks

/-- Adding literals to a pool, if there is room for all, leaves out those that are equal to one that
is there already. -/
theorem addAll_eq_loop (hp : Regular p) (hvs : Regular vs) (hlength : p.length ≤ capacity)
    (hfound : ∀ v ∈ vs, (p.addAll vs).lacks v = false) :
    p.addAll vs = List.eraseDupsBy.loop Value.equals (vs.filter Value.isPooled) p.reverse := by
  induction vs generalizing p with
  | nil => exact p.reverse_reverse.symm
  | cons v vs ih =>
    obtain ⟨hv, hvs⟩ := List.forall_mem_cons.mp hvs
    obtain ⟨hfirst, hothers⟩ := List.forall_mem_cons.mp hfound
    have hany : p.reverse.any v.equals = true ↔ v ∈ p := by
      rw [List.any_reverse]
      exact any_equals_iff hp hv
    change (p.add v).addAll vs = _
    rcases add_cases hp hv with ⟨hadd, hpooled, hmem, hlt⟩ | ⟨hadd, hfull⟩
    · have hregular : Regular (p ++ [v]) :=
        List.forall_mem_append.mpr ⟨hp, List.forall_mem_singleton.mpr hv⟩
      have hrest := ih hregular hvs (by simpa using hlt) (by rw [← hadd]; exact hothers)
      rw [List.filter_cons_of_pos hpooled, List.eraseDupsBy.loop,
        Bool.eq_false_iff.mpr (hany.not.mpr hmem), hadd, hrest, List.reverse_concat]
    · have hsame : p.addAll (v :: vs) = p.addAll vs := congrArg (addAll · vs) hadd
      have hrest := ih hp hvs hlength (by rw [← hsame]; exact hothers)
      rw [hadd, hrest]
      by_cases hpooled : v.isPooled = true
      · rw [hsame] at hfirst
        have hmem := mem_of_full hp hv hlength hpooled (hfull hpooled) hfirst
        rw [List.filter_cons_of_pos hpooled, List.eraseDupsBy.loop, hany.mpr hmem]
      · rw [List.filter_cons_of_neg hpooled]

/-- A pool in which all literals find a slot holds them in order, without those that are equal to an
earlier one. -/
theorem addAll_eq_eraseDupsBy (hvs : Regular vs)
    (hfound : ∀ v ∈ vs, (addAll [] vs).lacks v = false) :
    addAll [] vs = (vs.filter Value.isPooled).eraseDupsBy Value.equals :=
  addAll_eq_loop (List.forall_mem_nil _) hvs (Nat.zero_le _) hfound

end Pool

/-! ## Loads -/

/-- What the instructions of a sequence that load a constant load, one after the other. -/
def loaded (consts : List Value) (is : List Instr) : List (Option Value) :=
  (is.filter (·.op = .const)).map fun i => consts[i.operand]?

section Loads

variable {consts : List Value} {after : Code}

/-- Two sequences load one after the other. -/
theorem loaded_append (is js : List Instr) :
    loaded consts (is ++ js) = loaded consts is ++ loaded consts js := by
  rw [loaded, List.filter_append, List.map_append]
  rfl

/-- A sequence without constants loads nothing. -/
theorem loaded_eq_nil {is : List Instr} (h : ∀ i ∈ is, i.op ≠ .const) : loaded consts is = [] := by
  have hfilter : is.filter (·.op = .const) = [] := by
    rw [List.filter_eq_nil_iff]
    intro i hi hop
    exact h i hi (of_decide_eq_true hop)
  rw [loaded, hfilter, List.map_nil]

/-- Instructions without constants in front load nothing more. -/
theorem loaded_prepend {is : List Instr} (h : ∀ i ∈ is, i.op ≠ .const) (line : Int) :
    loaded consts (after.prepend line is).instrs = loaded consts after.instrs := by
  rw [Code.instrs_prepend, loaded_append, loaded_eq_nil h, List.nil_append]

/-- A literal is loaded if it is a constant; the others have instructions of their own. -/
theorem loaded_push {v : Value} (hv : Machine.Stored consts v) :
    loaded consts [Expr.push consts v] = if v.isPooled then [some v] else [] := by
  cases v with
  | nil => rfl
  | bool b => cases b <;> rfl
  | number x | text bs => exact congrArg ([·]) (hv rfl)

/-- The instructions of a binary operator load no constant. -/
theorem op_ne_of_opcodes (op : BinaryOp) :
    ∀ i ∈ op.opcodes.map (⟨·, 0⟩), (i : Instr).op ≠ .const := by
  cases op <;> decide

/-- The instructions of a logical operator load no constant. -/
theorem op_ne_of_logicCode (op : LogicOp) (n : Nat) : ∀ i ∈ Expr.logicCode op n, i.op ≠ .const := by
  cases op <;> simp [Expr.logicCode]

/-- The code of an expression loads its constants from left to right. -/
theorem loaded_codeThen {e : Tree} (he : e.Fits (Machine.Stored consts)) :
    loaded consts (e.expr.codeThen consts after).instrs =
      (e.literals.filter Value.isPooled).map some ++ loaded consts after.instrs := by
  induction e generalizing after with
  | literal t v =>
    rw [Tree.expr, Expr.codeThen, Code.instrs_prepend, loaded_append,
      loaded_push (Tree.fits_literal_iff.mp he), Tree.literals, List.filter_singleton]
    cases v.isPooled <;> rfl
  | group l e r ih => exact ih (Tree.fits_group_iff.mp he)
  | unary op t e ih =>
    have hop : ∀ i ∈ [(⟨op.opcode, 0⟩ : Instr)], i.op ≠ .const := by cases op <;> decide
    rw [Tree.expr, Expr.codeThen, ih (Tree.fits_unary_iff.mp he), loaded_prepend hop, Tree.literals]
  | binary op t l r ihl ihr =>
    obtain ⟨hl, hr⟩ := Tree.fits_binary_iff.mp he
    rw [Tree.expr, Expr.codeThen, ihl hl, ihr hr, loaded_prepend (op_ne_of_opcodes op),
      Tree.literals, List.filter_append, List.map_append, List.append_assoc]
  | logic op t l r ihl ihr =>
    obtain ⟨⟨hl, hr⟩, -⟩ := Tree.fits_logic_iff.mp he
    rw [Tree.expr, Expr.codeThen_logic, ihl hl, loaded_prepend (op_ne_of_logicCode op _), ihr hr,
      Tree.literals, List.filter_append, List.map_append, List.append_assoc]

/-- The code of a program loads its constants from left to right. -/
theorem loaded_sentencesThen {p : List Sentence}
    (hp : ∀ σ ∈ p, σ.tree.Fits (Machine.Stored consts)) :
    loaded consts (Machine.sentencesThen consts after p).instrs =
      ((literals p).filter Value.isPooled).map some ++ loaded consts after.instrs := by
  induction p with
  | nil => rfl
  | cons σ p ih =>
    obtain ⟨hσ, hp⟩ := List.forall_mem_cons.mp hp
    have huse : loaded consts ((Program.useOfSentence p.isEmpty σ).codeThen
          (Machine.sentencesThen consts after p)).instrs =
        loaded consts (Machine.sentencesThen consts after p).instrs := by
      rcases useOfSentence_cases σ p with ⟨op, line, hop, -, huse⟩ | ⟨-, -, huse⟩ <;> rw [huse]
      apply loaded_prepend
      rcases hop with rfl | rfl <;> decide
    have hliterals : literals (σ :: p) = σ.tree.literals ++ literals p := List.flatMap_cons
    rw [Machine.sentencesThen, loaded_codeThen hσ, huse, ih hp, hliterals, List.filter_append,
      List.map_append, List.append_assoc]

/-- The instructions that end a program load nothing. -/
theorem loaded_program {p : List Sentence} (hp : ∀ σ ∈ p, σ.tree.Fits (Machine.Stored consts))
    (endLine : Nat) (result : Bool) :
    loaded consts (Machine.sentencesThen consts (Machine.returnCode endLine result) p).instrs =
      ((literals p).filter Value.isPooled).map some := by
  have hreturn : loaded consts (Machine.returnCode endLine result).instrs = [] := by
    cases result <;> rfl
  rw [loaded_sentencesThen hp, hreturn, List.append_nil]

/-- Where the constants are those of the loaded values that differ from all earlier ones, each is
loaded. -/
theorem exists_load {is : List Instr} {vs : List Value} (hnodup : consts.Nodup)
    (hvs : ∀ v ∈ consts, v ∈ vs) (h : loaded consts is = vs.map some) {k : Nat}
    (hk : k < consts.length) : ⟨.const, k⟩ ∈ is := by
  have hmem : some consts[k] ∈ loaded consts is := by
    rw [h]
    exact List.mem_map_of_mem (hvs _ (List.getElem_mem hk))
  obtain ⟨⟨op, m⟩, hi, hvalue⟩ := List.mem_map.mp hmem
  obtain ⟨hi, hop⟩ := List.mem_filter.mp hi
  obtain rfl : op = .const := of_decide_eq_true hop
  -- two places with the same value are one
  have hplace : k = m := by
    rw [← List.getElem?_inj hk hnodup, List.getElem?_eq_getElem hk, hvalue]
  rw [hplace]
  exact hi

end Loads

/-! ## Compiled chunks -/

/-- How the constants of a chunk come from the tokens of a source. -/
structure Chunk.Pooled (c : Chunk) (ts : List Token) : Prop where
  /-- The constants are the values of the literals in order, without those that are equal to an
  earlier one. -/
  consts_eq : c.consts = (ts.filterMap Token.constant?).eraseDupsBy Value.equals
  /-- No two constants are equal. -/
  distinct : c.consts.Pairwise fun v w => v.equals w = false
  /-- The code is a sequence of instructions of which those that load a constant load the values of
  the literals, one after the other; and none of the constants is left unused. -/
  loads : ∃ is, c.Decomposes 0 is ∧
    loaded c.consts is = (ts.filterMap Token.constant?).map some ∧
    ∀ k < c.consts.length, ⟨.const, k⟩ ∈ is

/-- The constants of an accepted source are the literals in it. -/
theorem pooled_of_compile {source : Bytes} {c : Chunk} (h : compile source = .ok c) :
    c.Pooled (Token.scan (Utf8.decode source)).tokens := by
  obtain ⟨p, hp, hadmitted, rfl⟩ := exists_program_of_compile h
  have hregular := Program.regular_literals hp
  have hholds := Pool.holds_addAll hregular
  have hfound :=
    (Pool.lacks_iff_distinct hregular).mpr ((Program.admitted_nil_iff hp).mp hadmitted).1
  have hcomposed : Chunk.Composed _ ([] ++ _) :=
    composed_of_admitted hp hadmitted (Token.scan (Utf8.decode source)).endLine
  have hloaded := loaded_program (Machine.fits_of_admitted hp hadmitted)
    (Token.scan (Utf8.decode source)).endLine (Machine.givesResult p)
  have hconsts := Pool.addAll_eq_eraseDupsBy hregular hfound
  rw [hp.filter_literals] at hconsts hloaded
  refine ⟨hconsts, ?_, _, hcomposed.decomposes, hloaded, ?_⟩
  · exact (Pool.pairwise_equals_iff (hholds.regular hregular)).mpr hholds.nodup
  · intro k hk
    refine exists_load hholds.nodup ?_ hloaded hk
    intro v hv
    rw [← hp.filter_literals]
    exact List.mem_filter.mpr (hholds.mem_of_mem v hv)

/-- Literals that are spelled in different ways, some of them within the operands of others. -/
def spelledApart : Bytes :=
  Utf8.ofString "1 + 01.50 * (\"1\" == 1.0);\nprint \"1.5\" or -1.5 / (\"1\" == nil);"

/-- That source has seven literals and four constants. -/
theorem pooled_of_compile_spelledApart : ∃ c, compile spelledApart = .ok c ∧
    c.Pooled (Token.scan (Utf8.decode spelledApart)).tokens ∧
    ((Token.scan (Utf8.decode spelledApart)).tokens.filterMap Token.constant?).map Value.readable =
      ["1", "1.5", "\"1\"", "1", "\"1.5\"", "1.5", "\"1\""] ∧
    c.consts.map Value.readable = ["1", "1.5", "\"1\"", "\"1.5\""] := by
  have hcompile : compile spelledApart = .ok (Compilation.ofSource spelledApart).chunk := by
    rw [compile_eq, if_pos (by decide +kernel)]
  exact ⟨_, hcompile, pooled_of_compile hcompile, by decide +kernel, by decide +kernel⟩

end Lox
