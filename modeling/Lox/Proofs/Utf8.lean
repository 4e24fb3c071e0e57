import Lox.Text.Utf8

/-!
# Reading back an encoded text

`Utf8.encode` spells every character by a well-formed sequence of its least length, and
`Utf8.leading?` reads exactly such sequences: it reads back the spelling of every character
(`leading?_utf8EncodeChar`) and nothing else (`eq_utf8EncodeChar_of_leading?`). So the pieces of an
encoded text are its characters (`decode_encode`, `isValid_encode`), and a text without stray bytes
is the spelling of its characters (`encode_decode`).

A byte below 0x80 is a character on its own. No sequence goes on across it (`decode_append_ascii`),
and no other byte spells that character (`mem_of_mem_decode`). The bounds at the end compare the
lengths of a text and of its spelling.
-/

namespace Lox

namespace Utf8

variable {k v n code : Nat} {c : Char} {cs : List Char} {bs rest : Bytes} {seen : List Piece}

/-! ## One character -/

/-- A number below 256 is that of a byte. -/
theorem toNat_ofNat_of_byte (h : k < 256) : (UInt8.ofNat k).toNat = k := by
  rw [UInt8.toNat_ofNat', Nat.mod_eq_of_lt h]

/-- A continuation byte adds its six bits. -/
theorem trail_ofNat (h : k < 64) :
    trail (n + 1) code (UInt8.ofNat (k + 128) :: rest) = trail n (code * 64 + k) rest := by
  have hbyte : (UInt8.ofNat (k + 128)).toNat = k + 128 := toNat_ofNat_of_byte (by omega)
  have hbit : 0x80 ≤ UInt8.ofNat (k + 128) ∧ UInt8.ofNat (k + 128) < 0xC0 := by
    simp only [UInt8.le_iff_toNat_le, UInt8.lt_iff_toNat_lt, hbyte]
    exact ⟨Nat.le_add_left 128 k, Nat.add_lt_add_right h 128⟩
  rw [trail, if_pos hbit, hbyte, Nat.add_sub_cancel]

/-- What a leading byte announces, by its range. -/
theorem shape?_ofNat (h : k < 256) :
    shape? (UInt8.ofNat k)
      = if k < 0x80 then some (k, 0, 0)
        else if k < 0xC0 then none
        else if k < 0xE0 then some (k - 0xC0, 1, 0x80)
        else if k < 0xF0 then some (k - 0xE0, 2, 0x800)
        else if k < 0xF8 then some (k - 0xF0, 3, 0x10000)
        else none := by
  simp only [shape?, UInt8.lt_iff_toNat_lt, toNat_ofNat_of_byte h]
  rfl

/-- A leading byte and its continuation bytes spell the code point that they add up to. -/
theorem leading?_eq {b : UInt8} {bits least : Nat} (hshape : shape? b = some (bits, n, least))
    (htrail : trail n bits rest = some c.toNat) (hleast : least ≤ c.toNat) :
    leading? (b :: rest) = some (c, n) := by
  have hvalid : c.toNat.isValidChar := c.valid
  rw [leading?]
  simp only [hshape, htrail, if_pos (And.intro hleast hvalid), Char.ofNat_toNat]

/-- The spelling of a character is read back as that character, whatever follows it. -/
theorem leading?_utf8EncodeChar (c : Char) (rest : Bytes) :
    leading? (String.utf8EncodeChar c ++ rest)
      = some (c, (String.utf8EncodeChar c).length - 1) := by
  have hmax : c.toNat < 0x110000 := by
    have hvalid : c.toNat.isValidChar := c.valid
    omega
  have hval : c.val.toNat = c.toNat := rfl
  simp only [String.utf8EncodeChar, hval]
  split
  · next h1 =>
    have hshape : shape? (UInt8.ofNat c.toNat) = some (c.toNat, 0, 0) := by
      rw [shape?_ofNat (by omega), if_pos (by omega)]
    exact leading?_eq hshape rfl (Nat.zero_le _)
  · next h1 =>
    split
    · next h2 =>
      have hshape : shape? (UInt8.ofNat (c.toNat / 64 % 32 + 192))
          = some (c.toNat / 64 % 32, 1, 0x80) := by
        rw [shape?_ofNat (by omega), if_neg (by omega), if_neg (by omega), if_pos (by omega),
          Nat.add_sub_cancel]
      have htrail : trail 1 (c.toNat / 64 % 32) (UInt8.ofNat (c.toNat % 64 + 128) :: rest)
          = some c.toNat := by
        rw [trail_ofNat (by omega), trail, Option.some_inj]
        omega
      exact leading?_eq hshape htrail (by omega)
    · next h2 =>
      split
      · next h3 =>
        have hshape : shape? (UInt8.ofNat (c.toNat / 4096 % 16 + 224))
            = some (c.toNat / 4096 % 16, 2, 0x800) := by
          rw [shape?_ofNat (by omega), if_neg (by omega), if_neg (by omega), if_neg (by omega),
            if_pos (by omega), Nat.add_sub_cancel]
        have htrail : trail 2 (c.toNat / 4096 % 16)
            (UInt8.ofNat (c.toNat / 64 % 64 + 128) :: UInt8.ofNat (c.toNat % 64 + 128) :: rest)
              = some c.toNat := by
          rw [trail_ofNat (by omega), trail_ofNat (by omega), trail, Option.some_inj]
          omega
        exact leading?_eq hshape htrail (by omega)
      · next h3 =>
        have hshape : shape? (UInt8.ofNat (c.toNat / 262144 % 8 + 240))
            = some (c.toNat / 262144 % 8, 3, 0x10000) := by
          rw [shape?_ofNat (by omega), if_neg (by omega), if_neg (by omega), if_neg (by omega),
            if_neg (by omega), if_pos (by omega), Nat.add_sub_cancel]
        have htrail : trail 3 (c.toNat / 262144 % 8)
            (UInt8.ofNat (c.toNat / 4096 % 64 + 128) :: UInt8.ofNat (c.toNat / 64 % 64 + 128)
              :: UInt8.ofNat (c.toNat % 64 + 128) :: rest)
              = some c.toNat := by
          rw [trail_ofNat (by omega), trail_ofNat (by omega), trail_ofNat (by omega), trail,
            Option.some_inj]
          omega
        exact leading?_eq hshape htrail (by omega)

/-! ## Nothing else is read as a character -/

/-- A byte is given by how far it lies above a bound. -/
theorem eq_ofNat_add {b : UInt8} (h : k ≤ b.toNat) : b = UInt8.ofNat (b.toNat - k + k) := by
  rw [Nat.sub_add_cancel h, UInt8.ofNat_toNat]

/-- All that a leading byte can announce. -/
theorem shape?_cases {b : UInt8} {bits least : Nat} (h : shape? b = some (bits, n, least)) :
    (b = UInt8.ofNat bits ∧ bits < 0x80 ∧ n = 0 ∧ least = 0) ∨
      (b = UInt8.ofNat (bits + 0xC0) ∧ bits < 0x20 ∧ n = 1 ∧ least = 0x80) ∨
      (b = UInt8.ofNat (bits + 0xE0) ∧ bits < 0x10 ∧ n = 2 ∧ least = 0x800) ∨
      (b = UInt8.ofNat (bits + 0xF0) ∧ bits < 0x08 ∧ n = 3 ∧ least = 0x10000) := by
  have hbyte : b = UInt8.ofNat b.toNat := UInt8.ofNat_toNat.symm
  have hlt : b.toNat < 256 := UInt8.toNat_lt b
  rw [hbyte, shape?_ofNat hlt] at h
  simp only [apply_ite (· = some (bits, n, least)), Option.some.injEq, Prod.mk.injEq,
    reduceCtorEq] at h
  split at h
  · obtain ⟨rfl, rfl, rfl⟩ := h
    exact .inl ⟨hbyte, by assumption, rfl, rfl⟩
  split at h
  · exact h.elim
  split at h
  · obtain ⟨rfl, rfl, rfl⟩ := h
    exact .inr (.inl ⟨eq_ofNat_add (by omega), by omega, rfl, rfl⟩)
  split at h
  · obtain ⟨rfl, rfl, rfl⟩ := h
    exact .inr (.inr (.inl ⟨eq_ofNat_add (by omega), by omega, rfl, rfl⟩))
  split at h
  · obtain ⟨rfl, rfl, rfl⟩ := h
    exact .inr (.inr (.inr ⟨eq_ofNat_add (by omega), by omega, rfl, rfl⟩))
  · exact h.elim

/-- What is read as a continuation byte is one. -/
theorem exists_of_trail (h : trail (n + 1) code bs = some v) :
    ∃ m rest, bs = UInt8.ofNat (m + 128) :: rest ∧ m < 64 ∧
      trail n (code * 64 + m) rest = some v := by
  rcases bs with _ | ⟨b, rest⟩
  · cases h
  · rw [trail] at h
    split at h
    · rename_i hbyte
      rw [UInt8.le_iff_toNat_le, UInt8.lt_iff_toNat_lt] at hbyte
      have hleast : 128 ≤ b.toNat := hbyte.1
      have hmost : b.toNat < 192 := hbyte.2
      exact ⟨b.toNat - 128, rest, by rw [← eq_ofNat_add hleast], by omega, h⟩
    · cases h

/-- A valid code point is that of its character. -/
theorem val_ofNat (h : code.isValidChar) : (Char.ofNat code).val.toNat = code := by
  rw [Char.ofNat, dif_pos h]
  rfl

/-- All that is to be read of a character. -/
theorem exists_of_leading? {b : UInt8} (h : leading? (b :: bs) = some (c, n)) :
    ∃ bits least, shape? b = some (bits, n, least) ∧ trail n bits bs = some c.toNat ∧
      least ≤ c.toNat := by
  simp only [leading?] at h
  split at h
  · cases h
  rename_i bits m least hshape
  split at h
  · cases h
  rename_i code htrail
  split at h
  · rename_i hcode
    obtain ⟨rfl, rfl⟩ := Prod.mk.inj (Option.some.inj h)
    have hnat : (Char.ofNat code).toNat = code := val_ofNat hcode.2
    rw [hnat]
    exact ⟨bits, least, hshape, htrail, hcode.1⟩
  · cases h

/-- What is read as a character is the spelling of that character. -/
theorem eq_utf8EncodeChar_of_leading? (h : leading? bs = some (c, n)) :
    ∃ rest, bs = String.utf8EncodeChar c ++ rest ∧ (String.utf8EncodeChar c).length = n + 1 := by
  rcases bs with _ | ⟨b, bs⟩
  · cases h
  obtain ⟨bits, least, hshape, htrail, hleast⟩ := exists_of_leading? h
  have hval : c.val.toNat = c.toNat := rfl
  simp only [String.utf8EncodeChar, hval]
  generalize c.toNat = code at htrail hleast
  -- the bits of the code point, from the leading byte on, are those of its spelling
  rcases shape?_cases hshape with ⟨rfl, hbits, rfl, rfl⟩ | ⟨rfl, hbits, rfl, rfl⟩ |
    ⟨rfl, hbits, rfl, rfl⟩ | ⟨rfl, hbits, rfl, rfl⟩
  · obtain rfl : bits = code := Option.some.inj htrail
    rw [if_pos (by omega)]
    exact ⟨bs, rfl, rfl⟩
  · obtain ⟨m₁, rest, rfl, hm₁, htrail⟩ := exists_of_trail htrail
    obtain rfl : bits * 64 + m₁ = code := Option.some.inj htrail
    rw [if_neg (by omega), if_pos (by omega)]
    refine ⟨rest, ?_, rfl⟩
    rw [show (bits * 64 + m₁) / 64 % 32 = bits by omega, show (bits * 64 + m₁) % 64 = m₁ by omega]
    rfl
  · obtain ⟨m₁, rest₁, rfl, hm₁, htrail⟩ := exists_of_trail htrail
    obtain ⟨m₂, rest, rfl, hm₂, htrail⟩ := exists_of_trail htrail
    obtain rfl : (bits * 64 + m₁) * 64 + m₂ = code := Option.some.inj htrail
    rw [if_neg (by omega), if_neg (by omega), if_pos (by omega)]
    refine ⟨rest, ?_, rfl⟩
    rw [show ((bits * 64 + m₁) * 64 + m₂) / 4096 % 16 = bits by omega,
      show ((bits * 64 + m₁) * 64 + m₂) / 64 % 64 = m₁ by omega,
      show ((bits * 64 + m₁) * 64 + m₂) % 64 = m₂ by omega]
    rfl
  · obtain ⟨m₁, rest₁, rfl, hm₁, htrail⟩ := exists_of_trail htrail
    obtain ⟨m₂, rest₂, rfl, hm₂, htrail⟩ := exists_of_trail htrail
    obtain ⟨m₃, rest, rfl, hm₃, htrail⟩ := exists_of_trail htrail
    obtain rfl : ((bits * 64 + m₁) * 64 + m₂) * 64 + m₃ = code := Option.some.inj htrail
    rw [if_neg (by omega), if_neg (by omega), if_neg (by omega)]
    refine ⟨rest, ?_, rfl⟩
    rw [show (((bits * 64 + m₁) * 64 + m₂) * 64 + m₃) / 262144 % 8 = bits by omega,
      show (((bits * 64 + m₁) * 64 + m₂) * 64 + m₃) / 4096 % 64 = m₁ by omega,
      show (((bits * 64 + m₁) * 64 + m₂) * 64 + m₃) / 64 % 64 = m₂ by omega,
      show (((bits * 64 + m₁) * 64 + m₂) * 64 + m₃) % 64 = m₃ by omega]
    rfl

/-! ## Whole texts -/

/-- The pieces seen so far only go before the others. -/
theorem piecesFrom_eq (skip : Nat) (bs : Bytes) (seen : List Piece) :
    piecesFrom skip bs seen = seen.reverse ++ piecesFrom skip bs [] := by
  induction bs generalizing skip seen with
  | nil => simp [piecesFrom]
  | cons b bs ih =>
    cases skip with
    | succ skip => exact ih skip seen
    | zero =>
      rw [piecesFrom, piecesFrom]
      split
      · rw [ih _ (.char _ :: seen), ih _ [.char _]]
        simp
      · rw [ih _ (.stray b :: seen), ih _ [.stray b]]
        simp

/-- Bytes that are skipped leave no pieces. -/
theorem piecesFrom_length_append (front : Bytes) :
    piecesFrom front.length (front ++ rest) seen = piecesFrom 0 rest seen := by
  induction front with
  | nil => rfl
  | cons b front ih => rw [List.length_cons, List.cons_append, piecesFrom, ih]

/-- The spelling of a character is one piece. -/
theorem piecesFrom_utf8EncodeChar :
    piecesFrom 0 (String.utf8EncodeChar c ++ rest) seen
      = piecesFrom 0 rest (.char c :: seen) := by
  have hpos : 0 < (String.utf8EncodeChar c).length := by
    rw [String.length_utf8EncodeChar]
    exact Char.utf8Size_pos c
  obtain ⟨b, front, hspelled⟩ := List.exists_cons_of_ne_nil (List.ne_nil_of_length_pos hpos)
  have hread := leading?_utf8EncodeChar c rest
  rw [hspelled, List.cons_append, List.length_cons, Nat.add_sub_cancel] at hread
  rw [hspelled, List.cons_append, piecesFrom]
  simp only [hread]
  exact piecesFrom_length_append front

/-- The spellings of characters are one piece each. -/
theorem piecesFrom_encode :
    piecesFrom 0 (encode cs) seen = seen.reverse ++ cs.map .char := by
  induction cs generalizing seen with
  | nil => simp [piecesFrom]
  | cons c cs ih =>
    rw [encode_cons, piecesFrom_utf8EncodeChar, ih]
    simp

/-- The pieces of an encoded text are its characters. -/
theorem pieces_encode (cs : List Char) : pieces (encode cs) = cs.map .char := by
  rw [pieces, piecesFrom_encode, List.reverse_nil, List.nil_append]

/-- A text that is encoded is read back. -/
@[simp] theorem decode_encode (cs : List Char) : decode (encode cs) = cs := by
  rw [decode, pieces_encode, List.map_map]
  exact List.map_id cs

/-- A text that is encoded has no stray bytes. -/
@[simp] theorem isValid_encode (cs : List Char) : isValid (encode cs) = true := by
  rw [isValid, pieces_encode]
  simp [Piece.isChar]

/-! ## One piece after another -/

/-- The pieces after a character are those of what follows it. -/
theorem pieces_utf8EncodeChar_append (c : Char) (rest : Bytes) :
    pieces (String.utf8EncodeChar c ++ rest) = .char c :: pieces rest := by
  rw [pieces, piecesFrom_utf8EncodeChar, piecesFrom_eq]
  rfl

/-- The pieces after a stray byte are those of what follows it. -/
theorem pieces_cons_of_stray {b : UInt8} (h : leading? (b :: bs) = none) :
    pieces (b :: bs) = .stray b :: pieces bs := by
  rw [pieces, piecesFrom, h]
  exact piecesFrom_eq 0 bs [.stray b]

/-- A byte string is empty, or the spelling of a character stands at its front, or a byte that
begins none. -/
theorem pieces_induction {P : Bytes → Prop} (nil : P [])
    (char : ∀ c rest, P rest → P (String.utf8EncodeChar c ++ rest))
    (stray : ∀ b rest, leading? (b :: rest) = none → P rest → P (b :: rest)) (bs : Bytes) :
    P bs := by
  induction hn : bs.length using Nat.strongRecOn generalizing bs with
  | _ n ih =>
    rcases bs with _ | ⟨b, bs⟩
    · exact nil
    rcases hleading : leading? (b :: bs) with _ | ⟨c, k⟩
    · refine stray b bs hleading (ih bs.length ?_ bs rfl)
      rw [← hn, List.length_cons]
      exact Nat.lt_succ_self _
    · obtain ⟨rest, hbs, hlength⟩ := eq_utf8EncodeChar_of_leading? hleading
      rw [hbs]
      refine char c rest (ih rest.length ?_ rest rfl)
      rw [← hn, hbs, List.length_append, hlength]
      omega

/-- A text without stray bytes is the spelling of its characters. -/
theorem encode_decode (h : isValid bs = true) : encode (decode bs) = bs := by
  induction bs using pieces_induction with
  | nil => rfl
  | char c rest ih =>
    rw [isValid, pieces_utf8EncodeChar_append, List.all_cons, Bool.and_eq_true] at h
    rw [decode, pieces_utf8EncodeChar_append, List.map_cons]
    show String.utf8EncodeChar c ++ encode (decode rest) = _
    rw [ih h.2]
  | stray b rest hstray ih =>
    rw [isValid, pieces_cons_of_stray hstray, List.all_cons, Bool.and_eq_true] at h
    exact absurd h.1 Bool.false_ne_true

/-! ## Bytes that are characters -/

section Ascii

variable {a b : UInt8} {ds : Bytes}

/-- A byte below 0x80 is no continuation byte: where it follows there is one no more than at the
end. -/
theorem trail_append_ascii (ha : a < 0x80) (n code : Nat) (bs ds : Bytes) :
    trail n code (bs ++ a :: ds) = trail n code bs := by
  induction n generalizing code bs with
  | zero => rfl
  | succ n ih =>
    rcases bs with _ | ⟨b, bs⟩
    · have hbyte : ¬ (0x80 ≤ a ∧ a < 0xC0) := by
        intro h
        exact absurd ha (UInt8.not_lt.mpr h.1)
      rw [List.nil_append, trail, trail, if_neg hbyte]
    · rw [List.cons_append, trail, trail, ih]

/-- No character goes beyond a byte below 0x80. -/
theorem leading?_append_ascii (ha : a < 0x80) (b : UInt8) (bs ds : Bytes) :
    leading? (b :: (bs ++ a :: ds)) = leading? (b :: bs) := by
  simp only [leading?, trail_append_ascii ha]

/-- A byte below 0x80 is a character by itself. -/
theorem leading?_ascii (ha : a < 0x80) (bs : Bytes) :
    leading? (a :: bs) = some (Char.ofNat a.toNat, 0) := by
  have hlt : a.toNat < 128 := UInt8.lt_iff_toNat_lt.mp ha
  have hvalid : a.toNat.isValidChar := .inl (by omega)
  simp only [leading?, shape?, if_pos ha, trail, if_pos (And.intro (Nat.zero_le _) hvalid)]

/-- All bytes of a character are there. -/
theorem le_length_of_leading? (h : leading? (b :: bs) = some (c, n)) : n ≤ bs.length := by
  obtain ⟨rest, hbs, hlength⟩ := eq_utf8EncodeChar_of_leading? h
  have hcount := congrArg List.length hbs
  rw [List.length_cons, List.length_append, hlength] at hcount
  omega

/-- A byte below 0x80 parts the pieces before it from those after it. -/
theorem piecesFrom_append_ascii (ha : a < 0x80) {skip : Nat} (h : skip ≤ bs.length) (ds : Bytes) :
    piecesFrom skip (bs ++ a :: ds) [] =
      piecesFrom skip bs [] ++ .char (Char.ofNat a.toNat) :: pieces ds := by
  induction bs generalizing skip with
  | nil =>
    obtain rfl : skip = 0 := Nat.le_zero.mp h
    show piecesFrom 0 (a :: ds) [] = .char (Char.ofNat a.toNat) :: pieces ds
    rw [piecesFrom, leading?_ascii ha]
    exact piecesFrom_eq 0 ds [.char _]
  | cons b bs ih =>
    cases skip with
    | succ skip => exact ih (Nat.le_of_succ_le_succ h)
    | zero =>
      rw [List.cons_append, piecesFrom, piecesFrom, leading?_append_ascii ha]
      split
      · rename_i c n hleading
        rw [piecesFrom_eq, ih (le_length_of_leading? hleading), piecesFrom_eq _ _ [.char c],
          List.append_assoc]
      · rw [piecesFrom_eq, ih (Nat.zero_le _), piecesFrom_eq _ _ [.stray b], List.append_assoc]

/-- A byte below 0x80 is read as itself, whatever stands before it. -/
theorem decode_append_ascii (ha : a < 0x80) (bs ds : Bytes) :
    decode (bs ++ a :: ds) = decode bs ++ Char.ofNat a.toNat :: decode ds := by
  simp only [decode, pieces, piecesFrom_append_ascii ha (Nat.zero_le _), List.map_append,
    List.map_cons, Piece.toChar]

/-- Only the byte itself spells a character below 0x80. -/
theorem head_of_leading? (h : leading? (b :: bs) = some (c, n)) (hc : c.toNat < 0x80) :
    b = UInt8.ofNat c.toNat := by
  obtain ⟨rest, hbs, -⟩ := eq_utf8EncodeChar_of_leading? h
  have hone : String.utf8EncodeChar c = [UInt8.ofNat c.toNat] :=
    if_pos (Nat.le_of_lt_succ hc)
  rw [hone] at hbs
  exact (List.cons.inj hbs).1

/-- A character below 0x80 was there before, or its byte is among those that are read. -/
theorem mem_of_mem_piecesFrom (hc : c.toNat < 0x80) (skip : Nat) (bs : Bytes) (seen : List Piece)
    (h : .char c ∈ piecesFrom skip bs seen) : .char c ∈ seen ∨ UInt8.ofNat c.toNat ∈ bs := by
  fun_induction piecesFrom skip bs seen with
  | case1 => exact .inl (List.mem_reverse.mp h)
  | case2 skip b bs seen ih => exact (ih h).imp id (List.mem_cons_of_mem b)
  | case3 b bs seen d n hleading ih =>
    rcases ih h with hseen | hbs
    · rcases List.mem_cons.mp hseen with hhead | hseen
      · cases hhead
        exact .inr (head_of_leading? hleading hc ▸ List.mem_cons_self)
      · exact .inl hseen
    · exact .inr (List.mem_cons_of_mem b hbs)
  | case4 b bs seen hleading ih =>
    rcases ih h with hseen | hbs
    · exact .inl ((List.mem_cons.mp hseen).resolve_left (by simp))
    · exact .inr (List.mem_cons_of_mem b hbs)

/-- Where a character below 0x80 is read, its byte stands. -/
theorem mem_of_mem_decode (hc : c.toNat < 0x80) (h : c ∈ decode bs) :
    UInt8.ofNat c.toNat ∈ bs := by
  obtain ⟨p, hp, hchar⟩ := List.mem_map.mp h
  cases p with
  | char d =>
    obtain rfl : d = c := hchar
    exact (mem_of_mem_piecesFrom hc 0 bs [] hp).resolve_left List.not_mem_nil
  | stray b =>
    obtain rfl : '\uFFFD' = c := hchar
    exact absurd hc (by decide)

end Ascii

/-! ## Lengths -/

/-- No character takes more than four bytes. -/
theorem length_encode_le (cs : List Char) : (encode cs).length ≤ 4 * cs.length := by
  induction cs with
  | nil => exact Nat.le_refl 0
  | cons c cs ih =>
    have hchar : (String.utf8EncodeChar c).length ≤ 4 := by
      rw [String.length_utf8EncodeChar]
      exact Char.utf8Size_le_four c
    rw [encode_cons, List.length_append, List.length_cons]
    omega

/-- Every piece takes at least one byte. -/
theorem length_piecesFrom_le (skip : Nat) (bs : Bytes) (seen : List Piece) :
    (piecesFrom skip bs seen).length ≤ seen.length + bs.length := by
  fun_induction piecesFrom skip bs seen <;> simp at * <;> omega

/-- No text has more characters than bytes. -/
theorem length_decode_le (bs : Bytes) : (decode bs).length ≤ bs.length := by
  have hpieces := length_piecesFrom_le 0 bs []
  rw [List.length_nil, Nat.zero_add] at hpieces
  rw [decode, List.length_map]
  exact hpieces

end Utf8

end Lox
