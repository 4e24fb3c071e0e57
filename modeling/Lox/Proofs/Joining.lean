import Lox.Proofs.Lexical
import Lox.Proofs.Utf8

/-!
# Texts joined by a line feed

A line feed ends whatever stands before it, both as a byte and as a character: no sequence of bytes
goes on across it (`Utf8.decode_append_lineFeed`), and no token does that is not stray
(`Stretch.joined`). So the tokens of two texts with a line feed between them are the tokens of the
first and then those of the second, further down (`scan_joined`).
-/

namespace Lox

/-! ## Bytes -/

namespace Utf8

/-- A line feed is read as itself, whatever stands before it. -/
theorem decode_append_lineFeed (bs cs : Bytes) :
    decode (bs ++ lineFeed :: cs) = decode bs ++ '\n' :: decode cs :=
  decode_append_ascii (by decide) bs cs

end Utf8

/-! ## Characters -/

namespace Token

variable {p : Char → Bool} {c : Char} {more run rest cs ds : List Char} {line last last' : Nat}
  {ts us : List Token}

/-- A run ends before a line feed, unless that belongs to it. -/
theorem Run.joined (h : Run p run rest) (hfeed : p '\n' = false) (ds : List Char) :
    Run p run (rest ++ '\n' :: ds) := by
  refine ⟨h.all, ?_⟩
  intro d hd
  cases rest with
  | nil =>
    obtain rfl : '\n' = d := by simpa using hd
    exact hfeed
  | cons e rest => exact h.stops d hd

/-- What holds of the next character, and of a line feed, holds when a line feed and more come after
the text. -/
theorem head?_joined {q : Char → Prop} (h : ∀ d ∈ rest.head?, q d) (hfeed : q '\n')
    (ds : List Char) : ∀ d ∈ (rest ++ '\n' :: ds).head?, q d := by
  intro d hd
  cases rest with
  | nil =>
    obtain rfl : '\n' = d := by simpa using hd
    exact hfeed
  | cons e rest => exact h d hd

/-- A stretch that is not stray is the same when a line feed and more come after the text. -/
theorem Stretch.joined {kind? : Option Kind} (h : Stretch c more rest kind?)
    (hkind : kind? ≠ some .stray) (ds : List Char) :
    Stretch c more (rest ++ '\n' :: ds) kind? := by
  cases h with
  | blank hc => exact .blank hc
  | comment hrun => exact .comment (hrun.joined rfl ds)
  | whole hc hrun hrest =>
    refine .whole hc (hrun.joined rfl ds) ?_
    intro d tail heq
    rcases rest with _ | ⟨point, _ | ⟨e, rest⟩⟩
    · cases heq
    · cases heq
      rfl
    · cases heq
      exact hrest d rest rfl
  | fraction hc hds hd hes => exact .fraction hc hds hd (hes.joined rfl ds)
  | word hc hrun => exact .word hc (hrun.joined rfl ds)
  | text hbody => exact .text hbody
  | single hc => exact .single hc
  | slash hrest => exact .slash (head?_joined hrest (by decide) ds)
  | alone hc hrest => exact .alone hc (head?_joined hrest (by decide) ds)
  | doubled hc => exact .doubled hc
  | unclosed _ => exact absurd rfl hkind
  | foreign _ => exact absurd rfl hkind

/-- Texts are scanned one after the other. -/
theorem Scans.joined (h : Scans line cs ts last) (hstray : ∀ t ∈ ts, t.kind ≠ .stray)
    (hnext : Scans (last + 1) ds us last') :
    Scans line (cs ++ '\n' :: ds) (ts ++ us) last' := by
  induction h with
  | done =>
    have hblank : Stretch '\n' [] ds none := .blank rfl
    exact .skip hblank hnext
  | skip hstretch _ ih =>
    rw [List.cons_append, List.append_assoc]
    exact .skip (hstretch.joined (by simp) ds) (ih hstray hnext)
  | token hstretch _ ih =>
    have hkind := hstray _ List.mem_cons_self
    rw [List.cons_append, List.append_assoc, List.cons_append]
    refine .token (hstretch.joined (fun heq => hkind (Option.some.inj heq)) ds) ?_
    exact ih (fun t ht => hstray t (List.mem_cons_of_mem _ ht)) hnext

/-- The token, further down in the text. -/
def lower (n : Nat) (t : Token) : Token :=
  { t with line := t.line + n }

/-- A text further down has the same tokens there. -/
theorem Scans.lower (h : Scans line cs ts last) (n : Nat) :
    Scans (line + n) cs (ts.map (Token.lower n)) (last + n) := by
  induction h with
  | done => exact .done
  | skip hstretch _ ih =>
    rw [Nat.add_right_comm] at ih
    exact .skip hstretch ih
  | token hstretch _ ih =>
    rw [Nat.add_right_comm] at ih
    exact .token hstretch ih

/-- The tokens of two texts, the first without strays, with a line feed between them. -/
theorem scan_joined (hstray : ∀ t ∈ (scan cs).tokens, t.kind ≠ .stray) (ds : List Char) :
    scan (cs ++ '\n' :: ds) =
      ⟨(scan cs).tokens ++ (scan ds).tokens.map (Token.lower (1 + cs.count '\n')),
        (scan ds).endLine + (1 + cs.count '\n')⟩ := by
  have hcs := scans_scan cs
  have hds := (scans_scan ds).lower (scan cs).endLine
  rw [Nat.add_comm 1] at hds
  have hscans := hcs.joined hstray hds
  rw [hcs.last_eq] at hscans
  exact scans_iff.mp hscans

end Token

end Lox
