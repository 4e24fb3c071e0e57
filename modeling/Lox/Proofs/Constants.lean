import Lox.Pool
import Lox.Proofs.Grammar
import Mathlib

/-!
# Literals and their slots

The pool finds a literal by the equality of the language. That is not identity: a NaN differs from
itself, and the two zeros are equal. But no literal is NaN, and none has a sign, so between
literals the two are the same (`Value.equals_iff`): a literal has a slot after it was added, if
there was room, and in its slot stands that very value.

* `Pool.getElem?_slot?`: the slot of a literal holds it.
* `Pool.lacks_addAll_append`: whether a literal finds a slot is settled when its statement is read.
* `Pool.lacks_iff_distinct`: all literals find a slot just when no more than 256 differ pairwise.
-/

namespace Lox

namespace Number

/-! ## The doubles of literals -/

open Float.Model Float.Model.UnpackedFloat

/-- The bits of a double without a sign. -/
def bits (e : BitVec 11) (m : BitVec 52) : BitVec Format.binary64.numBits :=
  packComponents .binary64 .positive e m

/-- A double without a sign, and not NaN. -/
def Unsigned (x : Float) : Prop :=
  ∃ e m, x.toModel.toBits.toBitVec = bits e m ∧ (e = -1#11 → m = 0#52)

/-- A double of a literal is not NaN. -/
theorem Unsigned.ne_packedNaN {x : Float} (h : Unsigned x) :
    x.toModel.toBits.toBitVec ≠ packedNaN .binary64 := by
  obtain ⟨e, m, hbits, hones⟩ := h
  rw [hbits]
  intro heq
  have hnan : isNaNBits (bits e m) = true := heq ▸ isNaNBits_packedNaN
  rw [isNaNBits, decide_eq_true_eq, bits, unpackExponent_packComponents,
    unpackMantissa_packComponents] at hnan
  exact hnan.2 (hones hnan.1)

/-- A double of a literal is not the negative zero. -/
theorem Unsigned.ne_packedZero {x : Float} (h : Unsigned x) :
    x.toModel.toBits.toBitVec ≠ packedZero .binary64 .negative := by
  obtain ⟨e, m, hbits, -⟩ := h
  rw [hbits]
  intro heq
  have hsign := congrArg unpackSign heq
  rw [bits, packedZero, unpackSign_packComponents, unpackSign_packComponents] at hsign
  exact absurd hsign (by decide)

/-- Between such doubles equality as the language has it is identity. -/
theorem Unsigned.beq_iff {x y : Float} (hx : Unsigned x) (hy : Unsigned y) : x == y ↔ x = y := by
  have hbeq : (x == y) = UnpackedFloat.beq x.toModel.unpack y.toModel.unpack := rfl
  have hbits : x.toModel.toBits.toBitVec = y.toModel.toBits.toBitVec ↔ x = y := by
    constructor
    · intro heq
      obtain ⟨⟨⟨b⟩, _⟩⟩ := x
      obtain ⟨⟨⟨b'⟩, _⟩⟩ := y
      obtain rfl : b = b' := heq
      rfl
    · rintro rfl
      rfl
  rw [hbeq, Float.Model.unpack, Float.Model.unpack,
    unpack_beq_unpack_iff x.toModel.valid y.toModel.valid, ← hbits]
  simp [hx.ne_packedNaN, hy.ne_packedNaN, hx.ne_packedZero, hy.ne_packedZero]

/-- The positive zero has no sign. -/
theorem unsigned_zero : Unsigned 0 :=
  ⟨0#11, 0#52, rfl, fun _ => rfl⟩

/-- An unpacked number is positive. -/
def Positive : UnpackedFloat → Prop
  | .infinity s => s = .positive
  | .notANumber => False
  | .zero s => s = .positive
  | .finite s .. => s = .positive

/-- Packing a positive number sets no sign, and gives no NaN. -/
theorem unsigned_pack {f : UnpackedFloat} (h : Positive f) : Unsigned (.ofModel (.pack f)) := by
  cases f with
  | infinity s =>
    obtain rfl := h
    exact ⟨-1#11, 0#52, rfl, fun _ => rfl⟩
  | notANumber => exact h.elim
  | zero s =>
    obtain rfl := h
    exact ⟨0#11, 0#52, rfl, fun _ => rfl⟩
  | finite s m e hm =>
    obtain rfl := h
    change ∃ e' m', UnpackedFloat.pack .binary64 (.finite .positive m e hm) = bits e' m' ∧ _
    unfold UnpackedFloat.pack
    dsimp only
    split
    · exact ⟨-1#11, 0#52, rfl, fun _ => rfl⟩
    · rename_i hlt
      split
      · refine ⟨_, _, rfl, fun hones => ?_⟩
        have htoNat := congrArg BitVec.toNat hones
        rw [BitVec.toNat_ofNat] at htoNat
        change _ % 2048 = 2047 at htoNat
        change ¬2048 ≤ _ at hlt
        omega
      · exact ⟨0#11, _, rfl, fun hones => by cases hones⟩

/-- Rounding a positive number gives a positive one, infinity included. -/
theorem positive_roundWithAccuracy (spec : Format) (m : Nat) (e : Int) (a : Accuracy) :
    Positive (roundWithAccuracy spec .positive m e a) := by
  unfold roundWithAccuracy
  dsimp only
  split <;> rfl

/-- The double nearest to a decimal numeral is positive. -/
theorem positive_ofScientific (spec : Format) (m : Nat) (e : Int) :
    Positive (UnpackedFloat.ofScientific spec m e) := by
  unfold UnpackedFloat.ofScientific
  split
  · rfl
  split
  · rfl
  split
  · rfl
  split
  · exact positive_roundWithAccuracy ..
  · exact positive_roundWithAccuracy ..

/-- The double of a literal has no sign. -/
theorem unsigned_ofLiteral (cs : List Char) : Unsigned (ofLiteral cs) :=
  unsigned_pack (positive_ofScientific ..)

end Number

/-! ## Equality between literals -/

/-- A value that a literal can have. -/
def Value.Regular : Value → Prop
  | number x => Number.Unsigned x
  | _ => True

/-- Between values of literals equality is identity. -/
theorem Value.equals_iff {v w : Value} (hv : v.Regular) (hw : w.Regular) :
    v.equals w = true ↔ v = w := by
  cases v with
  | nil => cases w <;> simp [equals]
  | bool a => cases w <;> simp [equals]
  | number x =>
    cases w with
    | number y => rw [equals, hv.beq_iff hw, number.injEq]
    | _ => simp [equals]
  | text s => cases w <;> simp [equals]

/-- The value of a literal is one that a literal can have. -/
theorem Grammar.Literal.regular {t : Token} {v : Value} (h : Literal t v) : v.Regular := by
  cases h with
  | number _ => exact Number.unsigned_ofLiteral _
  | _ => trivial

/-! ## The pool -/

namespace Pool

variable {p : Pool} {v w : Value} {vs ws : List Value}

/-- All values of a list are values of literals. -/
def Regular (vs : List Value) : Prop :=
  ∀ v ∈ vs, v.Regular

/-- A literal has no slot just when it is not in the pool. -/
theorem slot?_eq_none_iff (hp : Regular p) (hv : v.Regular) : p.slot? v = none ↔ v ∉ p := by
  rw [slot?, List.findIdx?_eq_none_iff]
  constructor
  · intro h hmem
    have hself := h v hmem
    rw [(Value.equals_iff hv hv).mpr rfl] at hself
    cases hself
  · intro h w hw
    rw [Bool.eq_false_iff, ne_eq, Value.equals_iff (hp w hw) hv]
    rintro rfl
    exact h hw

/-- In the slot of a literal stands that very value. -/
theorem getElem?_slot? (hp : Regular p) (hv : v.Regular) {i : Nat} (h : p.slot? v = some i) :
    p[i]? = some v := by
  obtain ⟨hi, hequals, -⟩ := List.findIdx?_eq_some_iff_getElem.mp h
  rw [List.getElem?_eq_getElem hi,
    (Value.equals_iff (hp _ (List.getElem_mem hi)) hv).mp hequals]

/-- A literal is lacking if it is to be kept in the pool and is not there. -/
theorem lacks_eq_true_iff (hp : Regular p) (hv : v.Regular) :
    p.lacks v = true ↔ v.isPooled = true ∧ v ∉ p := by
  rw [lacks, Bool.and_eq_true, Option.isNone_iff_eq_none, slot?_eq_none_iff hp hv]

/-- All that adding a literal can do. -/
theorem add_cases (hp : Regular p) (hv : v.Regular) :
    (p.add v = p ++ [v] ∧ v.isPooled = true ∧ v ∉ p ∧ p.length < capacity) ∨
      (p.add v = p ∧ (v.isPooled = true → v ∉ p → capacity ≤ p.length)) := by
  unfold add
  by_cases h : (v.isPooled && (p.slot? v).isNone && p.length < capacity) = true
  · left
    rw [if_pos h]
    simp only [Bool.and_eq_true, Option.isNone_iff_eq_none, decide_eq_true_eq] at h
    exact ⟨rfl, h.1.1, (slot?_eq_none_iff hp hv).mp h.1.2, h.2⟩
  · right
    rw [if_neg h]
    simp only [Bool.and_eq_true, Option.isNone_iff_eq_none, decide_eq_true_eq] at h
    refine ⟨rfl, fun hpooled hmem => Nat.le_of_not_lt fun hlt => h ⟨⟨hpooled, ?_⟩, hlt⟩⟩
    exact (slot?_eq_none_iff hp hv).mpr hmem

/-- What is in a pool made from literals. -/
structure Holds (p : Pool) (vs : List Value) : Prop where
  nodup : p.Nodup
  length_le : p.length ≤ capacity
  mem_of_mem : ∀ v ∈ p, v ∈ vs ∧ v.isPooled = true
  /-- A literal is missing only when the pool is full. -/
  full : ∀ v ∈ vs, v.isPooled = true → v ∉ p → p.length = capacity

/-- The empty pool holds no literals. -/
theorem holds_nil : Holds [] [] :=
  ⟨List.nodup_nil, Nat.zero_le _, nofun, nofun⟩

/-- A pool made from literals holds values of literals only. -/
theorem Holds.regular (h : Holds p vs) (hvs : Regular vs) : Regular p :=
  fun v hv => hvs v (h.mem_of_mem v hv).1

/-- Adding a literal keeps what the pool is to hold in step. -/
theorem Holds.add (h : Holds p vs) (hp : Regular p) (hv : v.Regular) :
    Holds (p.add v) (vs ++ [v]) := by
  rcases add_cases hp hv with ⟨heq, hpooled, hmem, hlt⟩ | ⟨heq, hfull⟩ <;> rw [heq]
  · refine ⟨?_, ?_, fun w hw => ?_, fun w hw hwpooled hwmem => ?_⟩
    · exact List.nodup_append.mpr ⟨h.nodup, List.pairwise_singleton _ v, fun a ha b hb => by
        rintro rfl
        exact hmem (List.mem_singleton.mp hb ▸ ha)⟩
    · rw [List.length_append, List.length_singleton]
      exact hlt
    · rcases List.mem_append.mp hw with hw | hw
      · exact ⟨List.mem_append_left _ (h.mem_of_mem w hw).1, (h.mem_of_mem w hw).2⟩
      · obtain rfl := List.mem_singleton.mp hw
        exact ⟨List.mem_append_right _ hw, hpooled⟩
    · -- there was room for `v`, so none of the others is missing
      have hnew : w ∈ vs := by
        rcases List.mem_append.mp hw with hw | hw
        · exact hw
        · exact absurd (List.mem_append_right _ hw) hwmem
      have := h.full w hnew hwpooled fun hw => hwmem (List.mem_append_left _ hw)
      omega
  · refine ⟨h.nodup, h.length_le, fun w hw => ?_, fun w hw hwpooled hwmem => ?_⟩
    · exact ⟨List.mem_append_left _ (h.mem_of_mem w hw).1, (h.mem_of_mem w hw).2⟩
    · rcases List.mem_append.mp hw with hw | hw
      · exact h.full w hw hwpooled hwmem
      · obtain rfl := List.mem_singleton.mp hw
        exact Nat.le_antisymm h.length_le (hfull hwpooled hwmem)

/-- The pool holds the literals that were added to it. -/
theorem Holds.addAll (h : Holds p vs) (hvs : Regular vs) (hws : Regular ws) :
    Holds (p.addAll ws) (vs ++ ws) := by
  induction ws generalizing p vs with
  | nil => simpa [Pool.addAll] using h
  | cons w ws ih =>
    have hw : w.Regular := hws w List.mem_cons_self
    have hvsw : Regular (vs ++ [w]) := by
      intro u hu
      rcases List.mem_append.mp hu with hu | hu
      · exact hvs u hu
      · exact hws u (List.mem_singleton.mp hu ▸ List.mem_cons_self)
    have hadd := ih (h.add (h.regular hvs) hw) hvsw fun u hu => hws u (List.mem_cons_of_mem _ hu)
    rwa [List.append_assoc, List.singleton_append] at hadd

/-- The pool of some literals, added from the beginning, holds them. -/
theorem holds_addAll (hvs : Regular vs) : Holds (addAll [] vs) vs :=
  holds_nil.addAll nofun hvs

/-- Literals may be added in two parts. -/
theorem addAll_append (p : Pool) (vs ws : List Value) :
    p.addAll (vs ++ ws) = (p.addAll vs).addAll ws :=
  List.foldl_append

/-- A full pool stays as it is. -/
theorem addAll_of_full (h : p.length = capacity) (vs : List Value) : p.addAll vs = p := by
  induction vs with
  | nil => rfl
  | cons v vs ih =>
    have hadd : p.add v = p := by
      rw [add, if_neg]
      simp [h]
    rw [addAll, List.foldl_cons, hadd]
    exact ih

/-- What is in the pool stays there. -/
theorem mem_addAll (h : v ∈ p) (vs : List Value) : v ∈ p.addAll vs := by
  induction vs generalizing p with
  | nil => exact h
  | cons w vs ih =>
    refine ih ?_
    unfold add
    split
    · exact List.mem_append_left _ h
    · exact h

/-- Whether a literal has a slot does not change with the literals after it. -/
theorem lacks_addAll_append (hvs : Regular (vs ++ ws)) (hv : v ∈ vs) :
    (addAll [] (vs ++ ws)).lacks v = (addAll [] vs).lacks v := by
  have hleft : Regular vs := fun u hu => hvs u (List.mem_append_left _ hu)
  have hholds := holds_addAll hleft
  have hregular := (holds_addAll hvs).regular hvs
  rw [Bool.eq_iff_iff, lacks_eq_true_iff hregular (hleft v hv),
    lacks_eq_true_iff (hholds.regular hleft) (hleft v hv), addAll_append]
  constructor
  · exact fun h => ⟨h.1, fun hmem => h.2 (mem_addAll hmem ws)⟩
  · rintro ⟨hpooled, hmem⟩
    rw [addAll_of_full (hholds.full v hv hpooled hmem)]
    exact ⟨hpooled, hmem⟩

/-- No more than `n` of the constants among some literals differ pairwise. -/
def AtMost (n : Nat) (vs : List Value) : Prop :=
  ∀ ws : List Value, (∀ w ∈ ws, w ∈ vs ∧ w.isPooled = true) →
    ws.Pairwise (fun v w => v.equals w = false) → ws.length ≤ n

/-- Values of literals that differ pairwise in the language are all different. -/
theorem pairwise_equals_iff (h : Regular ws) :
    ws.Pairwise (fun v w => v.equals w = false) ↔ ws.Nodup := by
  have hequals : ∀ {v w : Value}, v ∈ ws → w ∈ ws → (v.equals w = false ↔ v ≠ w) := by
    intro v w hv hw
    rw [Bool.eq_false_iff, ne_eq, Value.equals_iff (h v hv) (h w hw)]
  constructor
  · exact fun hpairwise => hpairwise.imp_of_mem fun hv hw => (hequals hv hw).mp
  · exact fun hpairwise => hpairwise.imp_of_mem fun hv hw => (hequals hv hw).mpr

/-- Of the literals that find a slot, among others perhaps, there are not too many. -/
theorem atMost_of_lacks (hvs : Regular vs) (hws : ws ⊆ vs)
    (hfound : ∀ w ∈ ws, (addAll [] vs).lacks w = false) : AtMost capacity ws := by
  have hholds := holds_addAll hvs
  intro us hus hpairwise
  have hsub : us ⊆ addAll [] vs := by
    intro u hu
    obtain ⟨hmem, hpooled⟩ := hus u hu
    by_contra hnot
    have hlacks :=
      (lacks_eq_true_iff (hholds.regular hvs) (hvs u (hws hmem))).mpr ⟨hpooled, hnot⟩
    rw [hfound u hmem] at hlacks
    cases hlacks
  have hnodup := (pairwise_equals_iff fun u hu => hvs u (hws (hus u hu).1)).mp hpairwise
  exact Nat.le_trans (List.subperm_of_subset hnodup hsub).length_le hholds.length_le

/-- All literals find a slot just when there are not too many of them. -/
theorem lacks_iff_distinct (hvs : Regular vs) :
    (∀ v ∈ vs, (addAll [] vs).lacks v = false) ↔ AtMost capacity vs := by
  have hholds := holds_addAll hvs
  have hregular := hholds.regular hvs
  constructor
  · exact atMost_of_lacks hvs (List.Subset.refl vs)
  · intro hatMost v hv
    by_contra hlacks
    rw [Bool.not_eq_false, lacks_eq_true_iff hregular (hvs v hv)] at hlacks
    obtain ⟨hpooled, hmem⟩ := hlacks
    -- the full pool and one more literal are too many
    have hws : ∀ w ∈ v :: addAll [] vs, w ∈ vs ∧ w.isPooled = true := by
      intro w hw
      rcases List.mem_cons.mp hw with rfl | hw
      · exact ⟨hv, hpooled⟩
      · exact hholds.mem_of_mem w hw
    have hle := hatMost (v :: addAll [] vs) hws
      ((pairwise_equals_iff fun w hw => hvs w (hws w hw).1).mpr
        (List.nodup_cons.mpr ⟨hmem, hholds.nodup⟩))
    rw [List.length_cons, hholds.full v hv hpooled hmem] at hle
    omega

end Pool

end Lox
