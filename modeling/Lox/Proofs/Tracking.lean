import Lox.Proofs.Coverage
import Lox.Proofs.Making
import Lox.Proofs.OnePass
import Lox.Proofs.Rounds
import Lox.Proofs.Spacing

/-!
# Where the one-pass compiler stands

`Made.state` is the state of the one-pass compiler when something has been made, and `Stands` says
in addition which tokens are ahead. Each step of the compiler is then a step in what has been made:
to advance is to complain about the strays that are passed over, to write code is to write
instructions, and to look a constant up in the table of slots is to look for it in the pool. A jump
that was written without its distance is the jump with the greatest distance, and it is put right
afterwards (`Stands.patchJump`).

`Ends` says of a run that it comes to an end, without a breakdown and in a state with a property.
-/

namespace Lox

/-! ## Tokens one by one -/

namespace Token

section Next

variable {line last : Nat} {cs : List Char} {t : Token} {ts : List Token}

/-- The scanner gives the tokens of a text one by one. -/
theorem Scans.next_cons (h : Scans line cs (t :: ts) last) :
    ∃ s, Scanner.next ⟨cs, line⟩ = (t, s) ∧ Scans s.line s.rest ts last := by
  generalize hts : t :: ts = us at h
  induction h with
  | done => cases hts
  | skip hstretch _ ih =>
    rw [Scanner.next_of_skip hstretch]
    exact ih hts
  | token hstretch hrest _ =>
    cases hts
    exact ⟨_, Scanner.next_of_token hstretch _, hrest⟩

/-- After the last token the scanner gives the end. -/
theorem Scans.next_nil (h : Scans line cs [] last) :
    Scanner.next ⟨cs, line⟩ = (atEnd last, ⟨[], last⟩) := by
  generalize hts : ([] : List Token) = us at h
  induction h with
  | done => rfl
  | skip hstretch _ ih =>
    rw [Scanner.next_of_skip hstretch]
    exact ih hts
  | token => cases hts

end Next

section Literals

variable {c d : Char} {ds es more rest : List Char} {t : Token}

/-- Digits are a numeral. -/
theorem isNumeral_whole (hc : isDigit c = true) (hds : ∀ x ∈ ds, isDigit x = true) :
    OnePass.State.isNumeral (c :: ds) = true := by
  have hdrop : (c :: ds).dropWhile isDigit = [] :=
    List.dropWhile_eq_nil_iff.mpr (List.forall_mem_cons.mpr ⟨hc, hds⟩)
  simp [OnePass.State.isNumeral, hdrop]

/-- Digits, a point and more digits are a numeral. -/
theorem isNumeral_fraction (hc : isDigit c = true) (hds : ∀ x ∈ ds, isDigit x = true)
    (hd : isDigit d = true) (hes : ∀ x ∈ es, isDigit x = true) :
    OnePass.State.isNumeral (c :: (ds ++ '.' :: d :: es)) = true := by
  have hpoint : ¬ isDigit '.' = true := by decide
  have hdrop : (c :: (ds ++ '.' :: d :: es)).dropWhile isDigit = '.' :: d :: es := by
    rw [← List.cons_append, List.dropWhile_append_of_pos (List.forall_mem_cons.mpr ⟨hc, hds⟩),
      List.dropWhile_cons_of_neg hpoint]
  have hall : es.all isDigit = true := List.all_eq_true.mpr hes
  simp [OnePass.State.isNumeral, hdrop, hc, hd, hall]

/-- A number is spelled like one, and a text has its quotes. -/
theorem Stretch.spelled {kind : Kind} (h : Stretch c more rest (some kind)) :
    (kind = .number → OnePass.State.isNumeral (c :: more) = true) ∧
      (kind = .text → ∃ body, c :: more = '"' :: (body ++ ['"'])) := by
  -- no other stretch is of these kinds
  have hother : kind ≠ .number ∧ kind ≠ .text →
      (kind = .number → OnePass.State.isNumeral (c :: more) = true) ∧
        (kind = .text → ∃ body, c :: more = '"' :: (body ++ ['"'])) :=
    fun hne => ⟨fun hkind => absurd hkind hne.1, fun hkind => absurd hkind hne.2⟩
  have hsingles : ∀ entry ∈ singles, entry.2 ≠ .number ∧ entry.2 ≠ .text := by decide
  have hdoubles : ∀ entry ∈ doubles, (entry.2.1 ≠ .number ∧ entry.2.1 ≠ .text) ∧
      entry.2.2 ≠ .number ∧ entry.2.2 ≠ .text := by decide
  cases h with
  | whole hc hrun => exact ⟨fun _ => isNumeral_whole hc hrun.all, fun hkind => by cases hkind⟩
  | fraction hc hds hd hrun =>
    exact ⟨fun _ => isNumeral_fraction hc hds hd hrun.all, fun hkind => by cases hkind⟩
  | text => exact ⟨(fun hkind => by cases hkind), fun _ => ⟨_, rfl⟩⟩
  | word => exact hother ⟨wordKind_ne (by decide) _, wordKind_ne (by decide) _⟩
  | single hmem => exact hother (hsingles _ hmem)
  | slash => exact hother (by decide)
  | alone hmem => exact hother (hdoubles _ hmem).1
  | doubled hmem => exact hother (hdoubles _ hmem).2
  | unclosed => exact hother (by decide)
  | foreign => exact hother (by decide)

/-- No token of a text is the end. -/
theorem Proper.kind_ne_eof (h : t.Proper) : t.kind ≠ .eof := by
  obtain ⟨-, c, more, rest, -, hstretch⟩ := h
  exact hstretch.kind_ne_eof

/-- A number is spelled as a numeral. -/
theorem Proper.isNumeral (h : t.Proper) (hkind : t.kind = .number) :
    OnePass.State.isNumeral t.lexeme = true := by
  obtain ⟨-, c, more, rest, hlexeme, hstretch⟩ := h
  rw [hlexeme]
  exact hstretch.spelled.1 hkind

/-- The text between the quotes is what stands between the first and the last byte. -/
theorem Proper.unquoted_eq (h : t.Proper) (hkind : t.kind = .text) :
    2 ≤ (Utf8.encode t.lexeme).length ∧
      ((Utf8.encode t.lexeme).take ((Utf8.encode t.lexeme).length - 1)).drop 1 =
        Expr.unquoted t.lexeme := by
  obtain ⟨-, c, more, rest, hlexeme, hstretch⟩ := h
  obtain ⟨body, hbody⟩ := hstretch.spelled.2 hkind
  have hquote : Utf8.encode ['"'] = [34] := by decide
  have hencode : Utf8.encode ('"' :: (body ++ ['"'])) = 34 :: (Utf8.encode body ++ [34]) := by
    rw [← List.singleton_append, Utf8.encode_append, Utf8.encode_append, hquote]
    rfl
  rw [hlexeme, hbody, hencode, Expr.unquoted]
  refine ⟨?_, ?_⟩
  · simp
  · rw [← List.cons_append, List.length_append, List.length_singleton, Nat.add_sub_cancel,
      List.take_left' rfl]
    simp

end Literals

end Token

/-- A cell as the scanner fills it. -/
structure Cell.Proper (c : Cell) : Prop where
  token : c.token.Proper
  strays : ∀ t ∈ c.strays, t.kind = .stray

/-- The scanner fills every cell properly. -/
theorem Feed.proper_ofScanned (cs : List Char) :
    ∀ c ∈ (ofScanned (Token.scan cs)).cells, c.Proper := by
  intro c hc
  refine ⟨⟨kind_ofScanned _ hc, ?_⟩, (stray_ofScanned _).2 c hc⟩
  apply (Token.scans_scan cs).exists_stretch
  rw [← flatten_ofScanned]
  exact List.mem_append_right _ (List.mem_flatMap.mpr ⟨c, hc, List.mem_cons_self⟩)

/-- The tokens that the scanner has not given, when these cells are ahead. -/
def pending : List Cell → List Token
  | [] => []
  | c :: cs => c.strays ++ cs.flatMap Cell.tokens

namespace Cell

/-- The first token of the cells, or the end, is the token that comes next. -/
theorem headD_flatMap (cs : List Cell) (finish : Token) :
    (cs.flatMap Cell.tokens).headD finish = Statement.upcoming finish cs := by
  cases cs <;> rfl

/-- All tokens of the cells but the first are still to be given by the scanner. -/
theorem tail_flatMap (cs : List Cell) : (cs.flatMap Cell.tokens).tail = pending cs := by
  cases cs <;> rfl

/-- The first token of the cells is not stray. -/
theorem head?_flatMap {cs : List Cell} (hcs : ∀ c ∈ cs, c.Proper) :
    ∀ t ∈ (cs.flatMap Cell.tokens).head?, t.kind ≠ .stray := by
  intro t ht
  cases cs with
  | nil => cases ht
  | cons c cs =>
    obtain rfl : c.token = t := by simpa [Cell.tokens] using ht
    exact (hcs c List.mem_cons_self).token.1

end Cell

namespace OnePass

/-! ## Runs that end -/

/-- The run comes to an end, without a breakdown, in a state with the property. -/
def Ends {α : Type} (r : Run α) (P : α → Prop) : Prop :=
  ∃ a, r = pure a ∧ P a

section Ends

variable {α β : Type} {r : Run α} {P Q : α → Prop}

/-- What is given at once is where the run ends. -/
theorem ends_pure {a : α} (h : P a) : Ends (pure a) P :=
  ⟨a, rfl, h⟩

/-- A run that goes on from where another one ends comes to an end itself. -/
theorem Ends.bind {f : α → Run β} {Q : β → Prop} (h : Ends r P) (hf : ∀ a, P a → Ends (f a) Q) :
    Ends (r >>= f) Q := by
  obtain ⟨a, rfl, ha⟩ := h
  rw [pure_bind]
  exact hf a ha

/-- A run that ends in a state with one property ends in a state with any that follows from it. -/
theorem Ends.mono (h : Ends r P) (himp : ∀ a, P a → Q a) : Ends r Q := by
  obtain ⟨a, hr, ha⟩ := h
  exact ⟨a, hr, himp a ha⟩

end Ends

/-! ## The table of rules -/

/-- How a token of this kind begins an operand. -/
def Opening.ofKind? : Token.Kind → Option Opening
  | .leftParen => some .grouping
  | .minus | .bang => some .unary
  | .text => some .text
  | .number => some .number
  | .kwFalse | .kwNil | .kwTrue => some .word
  | _ => none

/-- How an operator continues an operand. -/
def Joining.ofOperator : Operator → Joining
  | .binary _ => .binary
  | .logic .and => .and
  | .logic .or => .or

/-- The level of an operator. -/
def levelOf : Operator → Precedence
  | .binary op => op.precedence
  | .logic op => op.precedence

/-- Every kind of token has a rule: its number is within the table. -/
theorem ruleOf_eq (k : Token.Kind) :
    ruleOf k = pure ⟨Opening.ofKind? k, (Operator.ofKind? k).map Joining.ofOperator,
      ((Operator.ofKind? k).map levelOf).getD .none⟩ := by
  cases k <;> rfl

/-- The level of an operator has the rank of the operator. -/
theorem rank_levelOf (op : Operator) : (levelOf op).rank = op.rank := by
  cases op <;> rfl

end OnePass

/-! ## What has been made, as a state -/

/-- The bytes of a jump. -/
theorem Instr.encode_jump {op : Opcode} (h : op.width = 2) (n : Nat) :
    encode ⟨op, n⟩ = [op.byte, UInt8.ofNat (n / 256), UInt8.ofNat n] := by
  simp [encode, h, operandBytes, Nat.pow]

/-- The slot of a constant in the table is its place in the pool. -/
theorem Pool.find?_zipIdx (f : Value → Bool) (pool : Pool) (k : Nat) :
    ((pool.zipIdx k).find? fun entry => f entry.1).map Prod.snd =
      (pool.findIdx? f).map (· + k) := by
  induction pool generalizing k with
  | nil => rfl
  | cons v pool ih =>
    rw [List.zipIdx_cons, List.find?_cons, List.findIdx?_cons]
    cases f v with
    | true => simp
    | false =>
      rw [ih (k + 1)]
      cases pool.findIdx? f with
      | none => rfl
      | some i => simp [Nat.add_assoc, Nat.add_comm 1 k]

/-- A constant that is new gets the next slot, if there is one. -/
theorem Pool.add_of_room {p : Pool} {v : Value} (hslot : p.slot? v = none)
    (hpooled : v.isPooled = true) (hv : v.Regular) (hroom : p.length < capacity) :
    p.add v = p ++ [v] ∧ slot? (p ++ [v]) v = some p.length := by
  have hself : v.equals v = true := (Value.equals_iff hv hv).mpr rfl
  constructor
  · simp [add, hpooled, hslot, hroom]
  · rw [slot?] at hslot ⊢
    rw [List.findIdx?_append, hslot]
    simp [hself]

namespace Made

/-- The state of the compiler when this has been made. Constants that found no slot come after the
others. -/
def state (m : Made) (spilled : List Value) (scanner : Token.Scanner) (prev curr : Token) :
    OnePass.State where
  scanner := scanner
  prev := prev
  curr := curr
  chunk := { code := m.code, lines := m.lines, consts := m.pool ++ spilled }
  slots := m.pool.zipIdx
  leavesResult := m.result
  errors := m.errors
  panicking := m.quiet

/-- What has been made is sound, with the constants that found no slot. -/
structure Sound (m : Made) (spilled : List Value) : Prop where
  room : m.pool.length ≤ Pool.capacity
  /-- Complaints are held back only after an error. -/
  blamed : m.quiet = true → m.errors ≠ []
  /-- A constant finds no slot only if all are taken, and then there is an error. -/
  spilled : spilled ≠ [] → m.pool.length = Pool.capacity ∧ m.errors ≠ []

variable {m : Made} {spilled : List Value}

/-- After a complaint there are errors, as it is held back only if there are some. -/
theorem errors_complain_ne_nil (hm : m.quiet = true → m.errors ≠ []) (d : Diagnostic) :
    (m.complain (some d)).errors ≠ [] := by
  cases hquiet : m.quiet with
  | false => simp [complain, hquiet]
  | true => simpa [complain, hquiet] using hm hquiet

/-- A complaint keeps what has been made sound. -/
theorem Sound.complain (h : m.Sound spilled) (d? : Option Diagnostic) :
    (m.complain d?).Sound spilled := by
  cases d? with
  | none => exact h
  | some d =>
    have herrors := errors_complain_ne_nil h.blamed d
    exact ⟨h.room, fun _ => herrors, fun hne => ⟨(h.spilled hne).1, herrors⟩⟩

/-- Nothing was spilled while there is room. -/
theorem Sound.spilled_eq_nil (h : m.Sound spilled) (hroom : m.pool.length < Pool.capacity) :
    spilled = [] := by
  by_contra hne
  exact absurd (h.spilled hne).1 (Nat.ne_of_lt hroom)

/-- To write instructions keeps what has been made sound. -/
theorem Sound.write (h : m.Sound spilled) (ps : List Placed) : (m.write ps).Sound spilled :=
  ⟨h.room, h.blamed, h.spilled⟩

section Steps

variable (m : Made) (spilled : List Value) (scanner : Token.Scanner) (prev curr : Token)

/-- To record an error is to complain. -/
theorem errorAt_state (t : Token) (reason : Reason) :
    (m.state spilled scanner prev curr).errorAt t reason =
      (m.complain (some ⟨reason, t⟩)).state spilled scanner prev curr := by
  obtain ⟨code, lines, pool, errors, quiet, result⟩ := m
  cases quiet <;> rfl

/-- To write code is to write its instructions. -/
theorem emit_state (line : Int) (is : List Instr) :
    (m.state spilled scanner prev curr).emit line (is.flatMap Instr.encode) =
      (m.write (placedOn line is)).state spilled scanner prev curr := by
  have hlines : List.replicate (is.flatMap Instr.encode).length line =
      (placedOn line is).flatMap fun p => List.replicate p.instr.size p.line := by
    induction is with
    | nil => rfl
    | cons i is ih =>
      rw [List.flatMap_cons, List.length_append, List.replicate_add, ih, Instr.length_encode]
      rfl
  rw [OnePass.State.emit, Chunk.write, hlines]
  simp [state, Made.write, placedOn, List.flatMap_map]

end Steps

/-- Strays are passed over, and the first one is complained about. -/
theorem ends_skipStrays (m : Made) (spilled : List Value) (prev : Token)
    {scanner : Token.Scanner} {strays ts : List Token} {last : Nat}
    (hscans : Token.Scans scanner.line scanner.rest (strays ++ ts) last)
    (hstrays : ∀ t ∈ strays, t.kind = .stray) (hts : ∀ t ∈ ts.head?, t.kind ≠ .stray)
    (curr : Token) :
    ∃ scanner', (m.state spilled scanner prev curr).skipStrays =
        pure ((m.complain (strays.head?.map (⟨.stray, ·⟩))).state spilled scanner' prev
          (ts.headD (.atEnd last))) ∧
      Token.Scans scanner'.line scanner'.rest ts.tail last := by
  induction strays generalizing m scanner curr with
  | nil =>
    cases ts with
    | nil =>
      have hnext : scanner.next = (Token.atEnd last, ⟨[], last⟩) := hscans.next_nil
      refine ⟨⟨[], last⟩, ?_, .done⟩
      rw [OnePass.State.skipStrays]
      simp [state, hnext, Token.atEnd]
    | cons t ts =>
      obtain ⟨scanner', hnext, hrest⟩ := hscans.next_cons
      have hkind : t.kind ≠ .stray := hts t rfl
      have hnext' : scanner.next = (t, scanner') := hnext
      refine ⟨scanner', ?_, hrest⟩
      rw [OnePass.State.skipStrays]
      simp [state, hnext', hkind]
  | cons stray strays ih =>
    obtain ⟨hstray, hstrays⟩ := List.forall_mem_cons.mp hstrays
    obtain ⟨scanner₁, hnext, hrest⟩ := hscans.next_cons
    have hnext' : scanner.next = (stray, scanner₁) := hnext
    obtain ⟨scanner', hrun, hscans'⟩ :=
      ih (m.complain (some ⟨.stray, stray⟩)) hrest hstrays stray
    rw [complain_complain] at hrun
    refine ⟨scanner', ?_, hscans'⟩
    rw [← errorAt_state] at hrun
    rw [OnePass.State.skipStrays]
    simp only [state, hnext', hstray] at hrun ⊢
    exact hrun

/-! ## Constants -/

/-- A constant that is in the pool is found in the table. -/
theorem slotOf_of_mem {v : Value} {i : Nat} (hslot : m.pool.slot? v = some i)
    (scanner : Token.Scanner) (prev curr : Token) :
    (m.state spilled scanner prev curr).slotOf v = (m.state spilled scanner prev curr, i) := by
  have hfind := Pool.find?_zipIdx (fun w => w.equals v) m.pool 0
  rw [Pool.slot?] at hslot
  rw [hslot] at hfind
  obtain ⟨entry, hentry, hindex⟩ := Option.map_eq_some_iff.mp hfind
  have hslots : (m.state spilled scanner prev curr).slots.find? (fun e => e.1.equals v) =
      some entry := hentry
  rw [OnePass.State.slotOf, hslots]
  exact congrArg (Prod.mk _) hindex

/-- A constant that is not in the pool is added to the table if there is room, and complained about
if there is none. -/
theorem slotOf_of_notMem {v : Value} (hslot : m.pool.slot? v = none) (scanner : Token.Scanner)
    (prev curr : Token) :
    (m.state spilled scanner prev curr).slotOf v =
      if m.pool.length + spilled.length < Pool.capacity then
        ({ m.state (spilled ++ [v]) scanner prev curr with
          slots := m.pool.zipIdx ++ [(v, m.pool.length + spilled.length)] },
          m.pool.length + spilled.length)
      else ((m.complain (some ⟨.tooManyConstants, prev⟩)).state (spilled ++ [v]) scanner prev curr,
        0) := by
  have hfind := Pool.find?_zipIdx (fun w => w.equals v) m.pool 0
  rw [Pool.slot?] at hslot
  rw [hslot] at hfind
  have hslots : (m.state spilled scanner prev curr).slots.find? (fun e => e.1.equals v) = none :=
    Option.map_eq_none_iff.mp hfind
  rw [OnePass.State.slotOf, hslots, ← errorAt_state]
  simp [state, Chunk.addConst]

/-- A constant that is looked up has the slot that it has in the pool, and one that finds no slot is
complained about. -/
theorem exists_slotOf (h : m.Sound spilled) {v : Value} (hpooled : v.isPooled = true)
    (hv : v.Regular) (scanner : Token.Scanner) (c : Cell) (curr : Token) :
    ∃ spilled', (m.state spilled scanner c.token curr).slotOf v =
        (((m.grow [v]).complain (Expr.literalComplaint? (m.pool.addAll [v]) c v)).state spilled'
          scanner c.token curr, (Pool.slot? (m.pool.addAll [v]) v).getD 0) ∧
      ((m.grow [v]).complain (Expr.literalComplaint? (m.pool.addAll [v]) c v)).Sound spilled' := by
  have hall : m.pool.addAll [v] = m.pool.add v := rfl
  rw [grow, hall]
  cases hslot : m.pool.slot? v with
  | some i =>
    have hadd : m.pool.add v = m.pool := by simp [Pool.add, hslot]
    have hquiet : Expr.literalComplaint? m.pool c v = none := by
      simp [Expr.literalComplaint?, Pool.lacks, hslot]
    rw [hadd, hquiet, hslot]
    exact ⟨spilled, slotOf_of_mem hslot .., h⟩
  | none =>
    rw [slotOf_of_notMem hslot]
    by_cases hroom : m.pool.length < Pool.capacity
    · obtain rfl := h.spilled_eq_nil hroom
      obtain ⟨hadd, hslot'⟩ := Pool.add_of_room hslot hpooled hv hroom
      have hquiet : Expr.literalComplaint? (m.pool ++ [v]) c v = none := by
        simp [Expr.literalComplaint?, Pool.lacks, hslot']
      have hroom' : m.pool.length + ([] : List Value).length < Pool.capacity := hroom
      rw [if_pos hroom', hadd, hquiet, hslot']
      refine ⟨[], ?_, ?_, h.blamed, fun hne => absurd rfl hne⟩
      · simp [state, List.zipIdx_append]
      · rw [pool_complain, List.length_append]
        exact hroom
    · have hfull : m.pool.length = Pool.capacity := Nat.le_antisymm h.room (Nat.le_of_not_lt hroom)
      have hnone : ¬ m.pool.length + spilled.length < Pool.capacity := by omega
      have hadd : m.pool.add v = m.pool := by simp [Pool.add, hfull]
      have hblame : Expr.literalComplaint? m.pool c v = some ⟨.tooManyConstants, c.token⟩ := by
        simp [Expr.literalComplaint?, Pool.lacks, hpooled, hslot]
      have hsound := h.complain (some ⟨.tooManyConstants, c.token⟩)
      rw [if_neg hnone, hadd, hblame, hslot]
      refine ⟨spilled ++ [v], rfl, hsound.room, hsound.blamed, ?_⟩
      intro _
      exact ⟨hfull, errors_complain_ne_nil h.blamed _⟩

/-- The instruction that pushes a constant is written. -/
theorem exists_emitConst (h : m.Sound spilled) {v : Value} (hpooled : v.isPooled = true)
    (hv : v.Regular) (scanner : Token.Scanner) (c : Cell) (curr : Token) :
    ∃ spilled', (m.state spilled scanner c.token curr).emitConst v =
        (((m.grow [v]).complain (Expr.literalComplaint? (m.pool.addAll [v]) c v)).write
          (placedOn c.line [Expr.push (m.pool.addAll [v]) v])).state spilled' scanner c.token curr ∧
      (((m.grow [v]).complain (Expr.literalComplaint? (m.pool.addAll [v]) c v)).write
        (placedOn c.line [Expr.push (m.pool.addAll [v]) v])).Sound spilled' := by
  obtain ⟨spilled', hslot, hsound⟩ := exists_slotOf h hpooled hv scanner c curr
  refine ⟨spilled', ?_, hsound.write _⟩
  rw [OnePass.State.emitConst, hslot]
  rw [← emit_state]
  have hpush : Expr.push (m.pool.addAll [v]) v =
      ⟨.const, (Pool.slot? (m.pool.addAll [v]) v).getD 0⟩ := by
    cases v with
    | nil | bool b => cases hpooled
    | number x | text b => rfl
  rw [hpush]
  simp [Instr.encode, Opcode.width, Instr.operandBytes, Cell.line, state]

/-! ## Jumps -/

/-- The two bytes after the opcode of a jump are put in. -/
theorem set_jump (front back : Bytes) (a b c x y : UInt8) :
    ((front ++ a :: b :: c :: back).set (front.length + 1) x).set (front.length + 2) y =
      front ++ a :: x :: y :: back := by
  simp

/-- A byte within the code can be put in. -/
theorem patch_state (m : Made) (scanner : Token.Scanner) (prev curr : Token) {offset : Nat}
    (h : offset < m.code.length) (b : UInt8) :
    (m.state spilled scanner prev curr).patch offset b =
      pure ({ m with code := m.code.set offset b }.state spilled scanner prev curr) :=
  if_pos h

/-- A jump that was written with the greatest distance is given its own. If that is too great, it
stays as it is, and is complained about. -/
theorem patchJump_state {op : Opcode} (hop : op.width = 2) (line : Int) (qs : List Placed) {n : Nat}
    (hn : (qs.flatMap fun q => q.instr.encode).length = n) (spilled : List Value)
    (scanner : Token.Scanner) (prev curr : Token) :
    ((m.write (placedOn line [⟨op, Expr.maxLeap⟩] ++ qs)).state spilled scanner prev
        curr).patchJump (m.code.length + 1) =
      pure (((m.write (placedOn line [⟨op, min n Expr.maxLeap⟩] ++ qs)).complain
        (if Expr.maxLeap < n then some ⟨.jumpTooFar, prev⟩ else none)).state spilled scanner prev
          curr) := by
  generalize hback : (qs.flatMap fun q => q.instr.encode) = back at hn
  have hcode (k : Nat) : (m.write (placedOn line [⟨op, k⟩] ++ qs)).code =
      m.code ++ op.byte :: UInt8.ofNat (k / 256) :: UInt8.ofNat k :: back := by
    rw [write, List.flatMap_append, hback]
    simp [placedOn, Instr.encode_jump hop]
  have hsize : (m.write (placedOn line [⟨op, Expr.maxLeap⟩] ++ qs)).code.length =
      m.code.length + (n + 3) := by
    rw [hcode, List.length_append]
    simp only [List.length_cons, hn]
  have hdistance : ((m.code.length + (n + 3) : Nat) : Int) - (m.code.length + 1 : Nat) - 2 = n := by
    omega
  have hchunk : ((m.write (placedOn line [⟨op, Expr.maxLeap⟩] ++ qs)).state spilled scanner prev
      curr).chunk.size = m.code.length + (n + 3) := hsize
  rw [OnePass.State.patchJump, hchunk, hdistance]
  by_cases hfar : Expr.maxLeap < n
  · have hnot : ¬ (0 ≤ (n : Int) ∧ (n : Int) ≤ 65535) := by
      rw [Expr.maxLeap] at hfar
      omega
    rw [if_neg hnot, if_pos hfar, Nat.min_eq_right (Nat.le_of_lt hfar), errorAt_state]
    rfl
  · have hnear : 0 ≤ (n : Int) ∧ (n : Int) ≤ 65535 := by
      rw [Expr.maxLeap] at hfar
      omega
    rw [if_pos hnear, if_neg hfar, Nat.min_eq_left (Nat.le_of_not_lt hfar), Int.toNat_natCast]
    have hset : ((m.write (placedOn line [⟨op, Expr.maxLeap⟩] ++ qs)).code.set (m.code.length + 1)
        (UInt8.ofNat (n / 256))).set (m.code.length + 1 + 1) (UInt8.ofNat n) =
          (m.write (placedOn line [⟨op, n⟩] ++ qs)).code := by
      rw [hcode, hcode, set_jump]
    rw [patch_state _ _ _ _ (by rw [hsize]; omega), pure_bind,
      patch_state _ _ _ _ (by rw [List.length_set, hsize]; omega), hset]
    rfl

end Made

namespace OnePass

/-! ## Where the compiler stands -/

open Statement (upcoming)

/-- The compiler has taken the tokens up to `last`, these cells are ahead of it before the end on
`line`, and this has been made. -/
inductive Stands (line : Nat) : List Cell → Token → Made → State → Prop where
  | intro {cells : List Cell} {last : Token} {m : Made} {spilled : List Value}
      {scanner : Token.Scanner} :
      m.Sound spilled → (∀ c ∈ cells, c.Proper) →
      Token.Scans scanner.line scanner.rest (pending cells) line →
      Stands line cells last m (m.state spilled scanner last (upcoming (.atEnd line) cells))

/-- The complaint about what comes after an expression, if it looks like an attempt to assign. Only
an expression that an assignment could begin is looked at. -/
def target? (floor : Nat) (next : Token) : Option Diagnostic :=
  if floor ≤ Precedence.assignment.rank ∧ next.kind = .equal then some ⟨.invalidTarget, next⟩
  else none

namespace Stands

variable {line : Nat} {cells cs : List Cell} {c : Cell} {last : Token} {m : Made} {s : State}

/-- The compiler has the last token that was taken. -/
theorem prev (h : Stands line cells last m s) : s.prev = last := by
  obtain ⟨-, -, -⟩ := h
  rfl

/-- The compiler has the token that comes next. -/
theorem curr (h : Stands line cells last m s) : s.curr = upcoming (.atEnd line) cells := by
  obtain ⟨-, -, -⟩ := h
  rfl

/-- The compiler holds errors back when complaints are held back. -/
theorem panicking (h : Stands line cells last m s) : s.panicking = m.quiet := by
  obtain ⟨-, -, -⟩ := h
  rfl

/-- The compiler leaves a result when what has been made does. -/
theorem leavesResult (h : Stands line cells last m s) : s.leavesResult = m.result := by
  obtain ⟨-, -, -⟩ := h
  rfl

/-- The compiler has recorded the errors of what has been made. -/
theorem errors (h : Stands line cells last m s) : s.errors = m.errors := by
  obtain ⟨-, -, -⟩ := h
  rfl

/-- Without errors every constant has a slot. -/
theorem chunk (h : Stands line cells last m s) (herrors : m.errors = []) :
    s.chunk = { code := m.code, lines := m.lines, consts := m.pool } := by
  obtain ⟨hsound, -, -⟩ := h
  rename_i spilled scanner
  have hnil : spilled = [] := by
    by_contra hne
    exact (hsound.spilled hne).2 herrors
  rw [hnil, Made.state, List.append_nil]

/-- The pool of what has been made does not exceed its capacity. -/
theorem room (h : Stands line cells last m s) : m.pool.length ≤ Pool.capacity := by
  obtain ⟨hsound, -, -⟩ := h
  exact hsound.room

/-- The cells ahead are filled properly. -/
theorem proper (h : Stands line cells last m s) : ∀ c ∈ cells, c.Proper := by
  obtain ⟨-, hproper, -⟩ := h
  exact hproper

/-- The token that comes next is the end only if no other is ahead. -/
theorem curr_eof_iff (h : Stands line cells last m s) : s.curr.kind = .eof ↔ cells = [] := by
  rw [h.curr]
  cases cells with
  | nil => exact ⟨fun _ => rfl, fun _ => rfl⟩
  | cons c cs =>
    have hne := (h.proper c List.mem_cons_self).token.kind_ne_eof
    exact ⟨fun heof => absurd heof hne, fun hnil => absurd hnil (List.cons_ne_nil c cs)⟩

/-- The tokens ahead are those of the cells. -/
theorem ahead (h : Stands line cells last m s) : s.ahead = cells.flatMap Cell.tokens := by
  rw [State.ahead]
  split
  · rename_i heof
    rw [h.curr_eof_iff.mp heof]
    rfl
  · rename_i hne
    obtain ⟨-, hproper, hscans⟩ := h
    cases cells with
    | nil => exact absurd rfl hne
    | cons c cs =>
      rw [Made.state, hscans.scanFrom_eq []]
      rfl

/-- To record an error is a complaint in what has been made. -/
theorem errorAt (h : Stands line cells last m s) (t : Token) (reason : Reason) :
    Stands line cells last (m.complain (some ⟨reason, t⟩)) (s.errorAt t reason) := by
  obtain ⟨hsound, hproper, hscans⟩ := h
  rw [Made.errorAt_state]
  exact ⟨hsound.complain _, hproper, hscans⟩

/-- To write code adds its instructions to what has been made. -/
theorem emit (h : Stands line cells last m s) (on : Int) (is : List Instr) :
    Stands line cells last (m.write (placedOn on is)) (s.emit on (is.flatMap Instr.encode)) := by
  obtain ⟨hsound, hproper, hscans⟩ := h
  rw [Made.emit_state]
  exact ⟨hsound.write _, hproper, hscans⟩

/-! ### Going on -/

/-- To go on takes the next cell, and complains about its strays. -/
theorem advance_cons (h : Stands line (c :: cs) last m s) :
    Ends s.advance (Stands line cs c.token (m.complain c.complaint?)) := by
  obtain ⟨hsound, hproper, hscans⟩ := h
  obtain ⟨hc, hcs⟩ := List.forall_mem_cons.mp hproper
  obtain ⟨scanner, hrun, hscans'⟩ := m.ends_skipStrays _ c.token hscans hc.strays
    (Cell.head?_flatMap hcs) c.token
  rw [Cell.headD_flatMap] at hrun
  rw [Cell.tail_flatMap] at hscans'
  exact ⟨_, hrun, hsound.complain _, hcs, hscans'⟩

/-- At the end there is only the end. -/
theorem advance_nil (h : Stands line [] last m s) :
    Ends s.advance (Stands line [] (.atEnd line) m) := by
  obtain ⟨hsound, hproper, hscans⟩ := h
  have hnone : ∀ t ∈ ([] : List Token), t.kind = .stray := List.forall_mem_nil _
  obtain ⟨scanner, hrun, hscans'⟩ := @Made.ends_skipStrays m _ (.atEnd line) _ [] [] line hscans
    hnone (by simp) (.atEnd line)
  exact ⟨_, hrun, hsound, hproper, hscans'⟩

/-! ### Literals -/

/-- A constant is compiled as the literal that it is. -/
theorem emitConst {v : Value} (h : Stands line cells c.token (m.complain c.complaint?) s)
    (hpooled : v.isPooled = true) (hv : v.Regular) :
    Stands line cells c.token (m.expr (.literal c v)) (s.emitConst v) := by
  obtain ⟨hsound, hproper, hscans⟩ := h
  obtain ⟨spilled, hemit, hsound'⟩ :=
    Made.exists_emitConst hsound hpooled hv _ c (upcoming (.atEnd line) cells)
  rw [hemit]
  exact ⟨hsound', hproper, hscans⟩

/-- A number is compiled as the literal that it is. -/
theorem number (h : Stands line cells c.token (m.complain c.complaint?) s) (hc : c.token.Proper)
    (hkind : c.token.kind = .number) :
    Ends s.number
      (Stands line cells c.token (m.expr (.literal c (.number (Number.ofLiteral c.token.lexeme)))))
    := by
  have hv := (Grammar.Literal.number hkind).regular
  rw [State.number, h.prev, if_pos (hc.isNumeral hkind)]
  exact ends_pure (h.emitConst rfl hv)

/-- A text is compiled as the literal that it is. -/
theorem text (h : Stands line cells c.token (m.complain c.complaint?) s) (hc : c.token.Proper)
    (hkind : c.token.kind = .text) :
    Ends s.text
      (Stands line cells c.token (m.expr (.literal c (.text (Expr.unquoted c.token.lexeme))))) := by
  have hv := (Grammar.Literal.text hkind).regular
  obtain ⟨htwo, hslice⟩ := hc.unquoted_eq hkind
  rw [State.text, h.prev]
  simp only [if_pos htwo, hslice]
  exact ends_pure (h.emitConst rfl hv)

/-- A word has an instruction of its own, and leaves the pool alone. -/
theorem word {v : Value} {op : Opcode} (h : Stands line cells c.token (m.complain c.complaint?) s)
    (hpooled : v.isPooled = false) (hpush : ∀ pool, Expr.push pool v = ⟨op, 0⟩)
    (hop : op.width = 0) :
    Stands line cells c.token (m.expr (.literal c v)) (s.emit c.token.line [op.byte]) := by
  have hpool (pool : Pool) : pool.addAll [v] = pool := by simp [Pool.addAll, Pool.add, hpooled]
  have hadd : (m.complain c.complaint?).grow [v] = m.complain c.complaint? := by
    rw [Made.grow, hpool]
  have hquiet : Expr.literalComplaint? (m.complain c.complaint?).pool c v = none := by
    simp [Expr.literalComplaint?, Pool.lacks, hpooled]
  have hbyte : [op.byte] = [(⟨op, 0⟩ : Instr)].flatMap Instr.encode := by
    simp [Instr.encode, hop, Instr.operandBytes]
  rw [Made.expr, hadd, hquiet, hpush, hbyte]
  exact h.emit c.line [⟨op, 0⟩]

/-- A literal is compiled to the instruction that pushes it. -/
theorem operand_literal {v : Value}
    (h : Stands line cells c.token (m.complain c.complaint?) s) (hc : c.token.Proper)
    (hv : Grammar.Literal c.token v) :
    ∃ opening, Opening.ofKind? c.token.kind = some opening ∧
      Ends (s.operand opening) (Stands line cells c.token (m.expr (.literal c v))) := by
  cases hv with
  | number hkind =>
    refine ⟨.number, by rw [hkind]; rfl, ?_⟩
    rw [State.operand]
    exact h.number hc hkind
  | text hkind =>
    refine ⟨.text, by rw [hkind]; rfl, ?_⟩
    rw [State.operand]
    exact h.text hc hkind
  | yes hkind =>
    refine ⟨.word, by rw [hkind]; rfl, ?_⟩
    rw [State.operand, State.word, h.prev, hkind]
    exact ends_pure (h.word rfl (fun _ => rfl) rfl)
  | no hkind =>
    refine ⟨.word, by rw [hkind]; rfl, ?_⟩
    rw [State.operand, State.word, h.prev, hkind]
    exact ends_pure (h.word rfl (fun _ => rfl) rfl)
  | nil hkind =>
    refine ⟨.word, by rw [hkind]; rfl, ?_⟩
    rw [State.operand, State.word, h.prev, hkind]
    exact ends_pure (h.word rfl (fun _ => rfl) rfl)

/-! ### Operators -/

/-- The instruction of an operator before its operand is written. -/
theorem emitUnary {op : UnaryOp} {t : Token} (h : Stands line cells last m s)
    (hop : UnaryOp.ofKind? t.kind = some op) :
    Ends (s.emitUnary t) (Stands line cells last (m.write (placedOn t.line [⟨op.opcode, 0⟩]))) := by
  have heq : s.emitUnary t = pure (s.emit t.line ([⟨op.opcode, 0⟩].flatMap Instr.encode)) := by
    unfold UnaryOp.ofKind? at hop
    split at hop <;> cases hop <;> rename_i hkind <;> rw [State.emitUnary, hkind] <;> rfl
  rw [heq]
  exact ends_pure (h.emit ..)

/-- The instructions of an operator between its operands are written. -/
theorem emitBinary {op : BinaryOp} {t : Token} (h : Stands line cells last m s)
    (hop : Operator.ofKind? t.kind = some (.binary op)) :
    Ends (s.emitBinary t)
      (Stands line cells last (m.write (placedOn t.line (op.opcodes.map (⟨·, 0⟩))))) := by
  have heq : s.emitBinary t =
      pure (s.emit t.line ((op.opcodes.map (⟨·, 0⟩)).flatMap Instr.encode)) := by
    unfold Operator.ofKind? at hop
    split at hop <;> cases hop <;> rename_i hkind <;> rw [State.emitBinary, hkind] <;> rfl
  rw [heq]
  exact ends_pure (h.emit ..)

/-! ### Jumps -/

/-- A jump is written with the greatest distance. -/
theorem emitJump {op : Opcode} (h : Stands line cells last m s) (hop : op.width = 2) :
    ∃ s', s.emitJump op = (s', m.code.length + 1) ∧
      Stands line cells last (m.write (placedOn last.line [⟨op, Expr.maxLeap⟩])) s' := by
  have hbytes : [op.byte, 0xFF, 0xFF] = [(⟨op, Expr.maxLeap⟩ : Instr)].flatMap Instr.encode := by
    simp [Instr.encode_jump hop, Expr.maxLeap]
  have hstands := h.emit last.line [⟨op, Expr.maxLeap⟩]
  refine ⟨_, ?_, hstands⟩
  rw [State.emitJump, h.prev, hbytes]
  refine congrArg (Prod.mk _) ?_
  obtain ⟨-, -, -⟩ := h
  simp [State.emit, Made.state, Instr.encode_jump hop, Chunk.size, Chunk.write]

/-- A jump is given its distance. -/
theorem patchJump {op : Opcode} {on : Int} {qs : List Placed} {n : Nat}
    (h : Stands line cells last (m.write (placedOn on [⟨op, Expr.maxLeap⟩] ++ qs)) s)
    (hop : op.width = 2) (hn : (qs.flatMap fun q => q.instr.encode).length = n) :
    Ends (s.patchJump (m.code.length + 1))
      (Stands line cells last ((m.write (placedOn on [⟨op, min n Expr.maxLeap⟩] ++ qs)).complain
        (if Expr.maxLeap < n then some ⟨.jumpTooFar, last⟩ else none))) := by
  generalize hmade : m.write (placedOn on [⟨op, Expr.maxLeap⟩] ++ qs) = made at h
  obtain ⟨hsound, hproper, hscans⟩ := h
  subst hmade
  rw [Made.patchJump_state hop on qs hn]
  refine ends_pure ⟨?_, hproper, hscans⟩
  apply Made.Sound.complain
  exact ⟨hsound.room, hsound.blamed, hsound.spilled⟩

/-! ### A token that is due -/

/-- A token that is due after an expression is taken, or another one is complained about. An attempt
to assign was complained about before. -/
theorem consume {kind : Token.Kind} (hequal : kind ≠ .equal) (heof : kind ≠ .eof) (reason : Reason)
    (h : Stands line cells last
      (m.complain (target? Precedence.assignment.rank (upcoming (.atEnd line) cells))) s) :
    Ends (s.consume kind reason) fun s' =>
      (∃ d ds, cells = d :: ds ∧ d.token.kind = kind ∧
        Stands line ds d.token (m.complain d.complaint?) s') ∨
      ((upcoming (.atEnd line) cells).kind ≠ kind ∧ Stands line cells last
        (m.complain (some (Expr.unexpected reason (upcoming (.atEnd line) cells)))) s') := by
  rw [State.consume, h.curr]
  by_cases hkind : (upcoming (.atEnd line) cells).kind = kind
  · rw [if_pos hkind]
    cases cells with
    | nil => exact absurd hkind.symm heof
    | cons d ds =>
      have hdue : d.token.kind = kind := hkind
      have hnone : target? Precedence.assignment.rank d.token = none := by
        rw [target?, if_neg]
        intro htarget
        exact hequal (hdue ▸ htarget.2)
      have h' : Stands line (d :: ds) last m s := by simpa [upcoming, hnone] using h
      apply h'.advance_cons.mono
      intro s' hs'
      exact .inl ⟨d, ds, rfl, hdue, hs'⟩
  · rw [if_neg hkind]
    have herror := h.errorAt (upcoming (.atEnd line) cells) reason
    rw [Made.complain_complain] at herror
    refine ends_pure (.inr ⟨hkind, ?_⟩)
    by_cases htarget : (upcoming (.atEnd line) cells).kind = .equal
    · simpa [target?, htarget, Expr.unexpected] using herror
    · simpa [target?, htarget, Expr.unexpected] using herror

end Stands

end OnePass

end Lox
