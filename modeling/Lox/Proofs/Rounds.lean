import Lox.Proofs.Recovery

/-!
# Errors by rounds

A program is read in rounds. In each one a statement is read, and if complaints are then held back,
recovery passes over what is left of it. A round therefore records at most two errors: the first
complaint about the statement, and the first stray that recovery meets. `Round` keeps both, with the
tokens of the round, and `exists_rounds` cuts what is read into rounds.

A round other than the last ends after a semicolon or before a `print`, so there is at most one
round more than there are such tokens (`length_rounds_le`). A stray met in recovery keeps the next
statement from complaining. So the errors come to at most one for each round, and one more if the
last recovery meets a stray: this is `errors_by_rounds`, and `stray_in_recovery` is a source where
it does.
-/

namespace Lox

/-- The token of a cell and the strays after it. -/
def Cell.tokens (c : Cell) : List Token :=
  c.token :: c.strays

/-! ## What is taken -/

namespace Expr

/-- Reading takes some cells off the front. The expression is made from these, from what was there
before, and from the token that comes next. -/
theorem exists_reach (finish : Token) (cells : List Cell) (mode : Mode) (fs : List Frame) :
    ∃ taken, cells = taken ++ (parseFrom finish cells mode fs).2 ∧
      ∀ P : Token → Prop, (∀ c ∈ taken, c.From P) →
        P (Statement.upcoming finish (parseFrom finish cells mode fs).2) → mode.From P →
        (∀ f ∈ fs, f.From P) → (parseFrom finish cells mode fs).1.From P := by
  induction cells generalizing mode fs with
  | nil =>
    refine ⟨[], ?_, ?_⟩
    · cases mode <;> rfl
    · intro P _ hnext hmode hfs
      cases mode with
      | operand =>
        have hfinish : P finish := hnext
        have hmissing : (missing ⟨finish, []⟩).From P := ⟨hfinish, List.forall_mem_nil _⟩
        exact finishAll_from hfinish hmissing hfs
      | after open_ e =>
        have hfinish : P finish := hnext
        exact finishAll_from hfinish hmode hfs
  | cons c cs ih =>
    rcases parseFrom_cons finish c cs mode fs with
      ⟨mode', fs', hmoves, heq⟩ | ⟨open_, e, e', rfl, hdone, heq⟩
    · obtain ⟨taken, htaken, hfrom⟩ := ih mode' fs'
      rw [heq]
      refine ⟨c :: taken, by rw [List.cons_append, ← htaken], ?_⟩
      intro P hcells hnext hmode hfs
      obtain ⟨hc, hcs⟩ := List.forall_mem_cons.mp hcells
      obtain ⟨hmode', hfs'⟩ := hmoves.keeps hc hmode hfs
      exact hfrom P hcs hnext hmode' hfs'
    · rw [heq]
      refine ⟨[], rfl, ?_⟩
      intro P _ hnext hmode hfs
      have hsettled := settle_from hnext open_ hmode hfs
      rw [show Statement.upcoming finish (c :: cs) = c.token from rfl, hdone] at hsettled
      exact hsettled

end Expr

namespace Statement

variable {P : Token → Prop} {finish : Token}

/-- The end of a statement takes the semicolon, if there is one. -/
theorem exists_reach_ending (finish : Token) (print : Bool) (cells : List Cell) :
    ∃ taken, cells = taken ++ (readEnding finish print cells).2 ∧
      ∀ P : Token → Prop, (∀ c ∈ taken, c.From P) →
        P (upcoming finish (readEnding finish print cells).2) →
        P (upcoming finish cells) ∧ EndsFrom P (readEnding finish print cells).1 := by
  cases cells with
  | nil =>
    refine ⟨[], by cases print <;> rfl, ?_⟩
    intro P _ hnext
    cases print with
    | true => exact ⟨hnext, hnext⟩
    | false => exact ⟨hnext, trivial⟩
  | cons c cs =>
    by_cases hkind : c.token.kind = .semicolon
    · rw [readEnding_semicolon hkind]
      refine ⟨[c], rfl, ?_⟩
      intro P hcells _
      have hc := hcells c List.mem_cons_self
      exact ⟨hc.token, hc⟩
    · rw [readEnding_of_ne hkind]
      refine ⟨[], rfl, ?_⟩
      intro P _ hnext
      exact ⟨hnext, hnext⟩

/-- A statement takes some cells off the front. It is made from these and from the token that comes
next. -/
theorem exists_reach (finish : Token) (c : Cell) (cs : List Cell) :
    ∃ taken, c :: cs = taken ++ (parse finish c cs).2 ∧
      ∀ P : Token → Prop, (∀ d ∈ taken, d.From P) → P (upcoming finish (parse finish c cs).2) →
        (parse finish c cs).1.From P := by
  -- the expression may begin with the first token or after it
  have hread : ∀ (print : Bool) (cells : List Cell),
      ∃ taken, cells = taken ++ (readEnding finish print (Expr.parse finish cells).2).2 ∧
        ∀ P : Token → Prop, (∀ d ∈ taken, d.From P) →
          P (upcoming finish (readEnding finish print (Expr.parse finish cells).2).2) →
          (Expr.parse finish cells).1.From P ∧
            EndsFrom P (readEnding finish print (Expr.parse finish cells).2).1 := by
    intro print cells
    obtain ⟨taken, htaken, hfrom⟩ := Expr.exists_reach finish cells .operand []
    obtain ⟨last, hlast, hending⟩ :=
      exists_reach_ending finish print (Expr.parse finish cells).2
    refine ⟨taken ++ last, ?_, ?_⟩
    · rw [List.append_assoc, ← hlast]
      exact htaken
    · intro P hcells hnext
      obtain ⟨htakenP, hlastP⟩ := List.forall_mem_append.mp hcells
      obtain ⟨hmiddle, hends⟩ := hending P hlastP hnext
      exact ⟨hfrom P htakenP hmiddle trivial (List.forall_mem_nil _), hends⟩
  by_cases hprint : c.token.kind = .kwPrint
  · obtain ⟨taken, htaken, hfrom⟩ := hread true cs
    rw [parse_print hprint]
    refine ⟨c :: taken, by rw [List.cons_append, ← htaken], ?_⟩
    intro P hcells hnext
    obtain ⟨hc, hcs⟩ := List.forall_mem_cons.mp hcells
    obtain ⟨hexpr, hends⟩ := hfrom P hcs hnext
    refine ⟨?_, hexpr, hends⟩
    rintro d ⟨⟩
    exact hc
  · obtain ⟨taken, htaken, hfrom⟩ := hread false (c :: cs)
    rw [parse_expr hprint]
    refine ⟨taken, htaken, ?_⟩
    intro P hcells hnext
    obtain ⟨hexpr, hends⟩ := hfrom P hcells hnext
    refine ⟨?_, hexpr, hends⟩
    intro d hd
    cases hd

/-- All that the end of a statement can be, when it is read. -/
theorem ending_cases (c : Cell) (cs : List Cell) :
    (∃ x, (parse finish c cs).1.ending = .semicolon x ∧ x.token.kind = .semicolon) ∨
      ((parse finish c cs).1.ending = .atEnd ∧ (parse finish c cs).2 = []) ∨
      ∃ t, (parse finish c cs).1.ending = .unended t := by
  have hread : ∀ (print : Bool) (cells : List Cell),
      (∃ x, (readEnding finish print cells).1 = .semicolon x ∧ x.token.kind = .semicolon) ∨
        ((readEnding finish print cells).1 = .atEnd ∧ (readEnding finish print cells).2 = []) ∨
        ∃ t, (readEnding finish print cells).1 = .unended t := by
    intro print cells
    rcases readEnding_cases finish print cells with ⟨x, xs, -, hkind, heq⟩ | ⟨-, -, heq⟩ | ⟨t, heq⟩
    · exact .inl ⟨x, by rw [heq], hkind⟩
    · exact .inr (.inl (by simp [heq]))
    · exact .inr (.inr ⟨t, by rw [heq]⟩)
  by_cases hprint : c.token.kind = .kwPrint
  · rw [parse_print hprint]
    exact hread true _
  · rw [parse_expr hprint]
    exact hread false _

/-- If something is left after a statement, the last token of the statement stands before it. -/
theorem exists_last (c : Cell) (cs : List Cell) (hrest : (parse finish c cs).2 ≠ []) :
    ∃ front x, c :: cs = front ++ x :: (parse finish c cs).2 ∧
      (parse finish c cs).1.last = x.token := by
  have hread : ∀ (print : Bool) (cells : List Cell) (w? : Option Cell),
      (readEnding finish print (Expr.parse finish cells).2).2 ≠ [] →
      ∃ front x, cells = front ++ x :: (readEnding finish print (Expr.parse finish cells).2).2 ∧
        (⟨w?, (Expr.parse finish cells).1,
          (readEnding finish print (Expr.parse finish cells).2).1⟩ : Statement).last = x.token := by
    intro print cells w? hne
    rcases readEnding_cases finish print (Expr.parse finish cells).2 with
      ⟨x, xs, hcells, -, heq⟩ | ⟨-, -, heq⟩ | ⟨t, heq⟩
    · obtain ⟨taken, htaken, -⟩ := Expr.exists_reach finish cells .operand []
      rw [heq]
      refine ⟨taken, x, ?_, rfl⟩
      rw [← hcells]
      exact htaken
    · rw [heq] at hne
      exact absurd rfl hne
    · rw [heq] at hne ⊢
      exact Expr.exists_last hne
  by_cases hprint : c.token.kind = .kwPrint
  · rw [parse_print hprint] at hrest ⊢
    obtain ⟨front, x, hcells, hlast⟩ := hread true cs (some c) hrest
    exact ⟨c :: front, x, by rw [List.cons_append, ← hcells], hlast⟩
  · rw [parse_expr hprint] at hrest ⊢
    exact hread false (c :: cs) none hrest

/-- What a statement takes: its complaint is about that or about the token that comes next, and if
its last token is a semicolon, then what it takes ends with a semicolon. -/
theorem exists_taken (finish : Token) (c : Cell) (cs : List Cell) :
    ∃ taken, c :: cs = taken ++ (parse finish c cs).2 ∧ taken ≠ [] ∧
      (∀ pool, ∀ d ∈ (parse finish c cs).1.complaint? pool,
        d.token ∈ taken.flatMap Cell.tokens ∨ d.token = upcoming finish (parse finish c cs).2) ∧
      ((parse finish c cs).1.last.kind = .semicolon →
        (parse finish c cs).2 = [] ∨ ∃ x ∈ taken.getLast?, x.token.kind = .semicolon) := by
  obtain ⟨taken, htaken, hfrom⟩ := exists_reach finish c cs
  refine ⟨taken, htaken, ?_, ?_, ?_⟩
  · rintro rfl
    have hlt := length_parse_lt finish c cs
    rw [htaken] at hlt
    exact absurd hlt (Nat.lt_irrefl _)
  · intro pool
    refine (hfrom (fun t => t ∈ taken.flatMap Cell.tokens ∨
      t = upcoming finish (parse finish c cs).2) ?_ (.inr rfl)).blames pool
    intro x hx
    refine ⟨.inl ?_, fun t ht => .inl ?_⟩
    · exact List.mem_flatMap.mpr ⟨x, hx, List.mem_cons_self⟩
    · exact List.mem_flatMap.mpr ⟨x, hx, List.mem_cons_of_mem _ ht⟩
  · intro hkind
    by_cases hrest : (parse finish c cs).2 = []
    · exact .inl hrest
    · obtain ⟨front, x, hcells, hx⟩ := exists_last c cs hrest
      have hfront : taken = front ++ [x] := by
        refine (List.append_left_inj (parse finish c cs).2).mp ?_
        rw [← htaken, List.append_assoc]
        exact hcells
      exact .inr ⟨x, by simp [hfront], hx ▸ hkind⟩

end Statement

/-! ## Rounds -/

/-- A statement and the recovery after it. -/
structure Round where
  /-- The cells that the statement takes. -/
  taken : List Cell
  /-- The cells that recovery passes over. -/
  dropped : List Cell
  /-- The complaint that the statement records. -/
  said? : Option Diagnostic
  /-- The stray that recovery records. -/
  met? : Option Diagnostic

namespace Round

/-- The cells of a round. -/
def cells (r : Round) : List Cell :=
  r.taken ++ r.dropped

/-- The errors of a round, in the order in which they are recorded. -/
def errors (r : Round) : List Diagnostic :=
  r.said?.toList ++ r.met?.toList

/-- The errors of a round, the last one first. -/
theorem reverse_errors (r : Round) : r.errors.reverse = r.met?.toList ++ r.said?.toList := by
  unfold errors
  cases r.said? <;> cases r.met? <;> rfl

/-- A round before the cells `rest`. -/
structure Sound (finish : Token) (rest : List Cell) (r : Round) : Prop where
  taken : r.taken ≠ []
  /-- Nothing is left, or a semicolon has been passed, or a `print` comes next. -/
  ends : rest = [] ∨ (∃ x ∈ r.cells.getLast?, x.token.kind = .semicolon) ∨
    ∃ x ∈ rest.head?, x.token.kind = .kwPrint
  /-- The complaint is about what the statement takes, or about the token after it. -/
  said : ∀ d ∈ r.said?, d.token ∈ r.taken.flatMap Cell.tokens ∨
    d.token = Statement.upcoming finish (r.dropped ++ rest)
  /-- What recovery records is the first stray after a token that it passes over. -/
  met : r.met? = (r.dropped.flatMap Cell.strays).head?.map (⟨.stray, ·⟩)

/-- Rounds that follow one another up to the end. A complaint is held back after a stray that was
recorded in recovery, and at first if `quiet` says so. -/
def Follow (finish : Token) : Bool → List Round → Prop
  | _, [] => True
  | quiet, r :: rs =>
    (quiet = true → r.said? = none) ∧ r.Sound finish (rs.flatMap cells) ∧
      Follow finish r.met?.isSome rs

end Round

namespace Program

variable {finish : Token} {p : Progress}

/-- Recovery passes over some cells, and finds the first stray after one of them. It stops after a
semicolon, before a `print`, or at the end. -/
theorem exists_dropped (afterSemicolon : Bool) (cells : List Cell) (found : Option Diagnostic) :
    ∃ dropped, cells = dropped ++ (recover afterSemicolon cells found).1 ∧
      (recover afterSemicolon cells found).2 =
        (found <|> (dropped.flatMap Cell.strays).head?.map (⟨.stray, ·⟩)) ∧
      ((recover afterSemicolon cells found).1 = [] ∨ (afterSemicolon = true ∧ dropped = []) ∨
        (∃ x ∈ dropped.getLast?, x.token.kind = .semicolon) ∨
        ∃ x ∈ (recover afterSemicolon cells found).1.head?, x.token.kind = .kwPrint) := by
  induction cells generalizing afterSemicolon found with
  | nil => exact ⟨[], rfl, by simp [recover], .inl rfl⟩
  | cons c cs ih =>
    by_cases hstop : (afterSemicolon || c.token.kind = .kwPrint) = true
    · rw [recover, if_pos hstop]
      refine ⟨[], rfl, by simp, .inr ?_⟩
      rcases Bool.or_eq_true_iff.mp hstop with hsemicolon | hprint
      · exact .inl ⟨hsemicolon, rfl⟩
      · exact .inr (.inr ⟨c, rfl, of_decide_eq_true hprint⟩)
    · rw [recover, if_neg hstop]
      obtain ⟨dropped, hcells, hfound, hends⟩ :=
        ih (c.token.kind = .semicolon) (found <|> c.complaint?)
      refine ⟨c :: dropped, by rw [List.cons_append, ← hcells], ?_, ?_⟩
      · rw [hfound, List.flatMap_cons, Cell.complaint?]
        cases found <;> cases c.strays <;> simp
      · rcases hends with hnil | ⟨hkind, rfl⟩ | ⟨x, hx, hkind⟩ | hprint
        · exact .inl hnil
        · exact .inr (.inr (.inl ⟨c, rfl, of_decide_eq_true hkind⟩))
        · exact .inr (.inr (.inl ⟨x, List.mem_getLast?_cons hx, hkind⟩))
        · exact .inr (.inr (.inr hprint))

/-- The complaint that progress records, if it is not held back. -/
def Progress.recorded (p : Progress) (d? : Option Diagnostic) : Option Diagnostic :=
  if p.quiet then none else d?

/-- What is recorded of a complaint is the complaint itself. -/
theorem Progress.mem_of_recorded (p : Progress) {d? : Option Diagnostic} {d : Diagnostic}
    (h : d ∈ p.recorded d?) : d ∈ d? := by
  unfold recorded at h
  split at h
  · cases h
  · exact h

/-- A complaint adds to the errors what is recorded of it. -/
theorem Progress.errors_complain_eq (p : Progress) (d? : Option Diagnostic) :
    (p.complain d?).errors = (p.recorded d?).toList ++ p.errors := by
  unfold complain recorded
  cases d? with
  | none => cases p.quiet <;> rfl
  | some d => cases p.quiet <;> rfl

/-- After a complaint the ones that follow are held back. -/
theorem Progress.quiet_complain (p : Progress) (d? : Option Diagnostic) :
    (p.complain d?).quiet = (p.quiet || d?.isSome) := by
  cases d? with
  | none => exact (Bool.or_false _).symm
  | some d => exact (Bool.or_true _).symm

/-- If nothing is held back after a statement, then it ended as it should. -/
theorem last_of_quiet {c : Cell} {cs : List Cell} {s : Statement × List Cell}
    (hs : Statement.parse finish c cs = s) (hquiet : (p.take s.1 s.2).quiet = false) :
    s.2 = [] ∨ s.1.last.kind = .semicolon := by
  subst hs
  rcases @Statement.ending_cases finish c cs with
    ⟨x, hending, hkind⟩ | ⟨-, hnil⟩ | ⟨t, hending⟩
  · refine .inr ?_
    rw [Statement.last, hending]
    exact hkind
  · exact .inl hnil
  · exact absurd hending (ending_of_take hquiet t)

/-- One statement and the recovery after it are a round. -/
theorem exists_round (finish : Token) (p : Progress) (c : Cell) (cs : List Cell)
    {s : Statement × List Cell} (hs : Statement.parse finish c cs = s)
    {next : Progress × List Cell} (hnext : resume (p.take s.1 s.2) s.1 s.2 = next) :
    ∃ r : Round, c :: cs = r.cells ++ next.2 ∧ r.Sound finish next.2 ∧
      (p.quiet = true → r.said? = none) ∧ next.1.quiet = r.met?.isSome ∧
      next.1.errors = r.errors.reverse ++ p.errors := by
  obtain ⟨taken, htaken, hne, hblames, hlast⟩ := Statement.exists_taken finish c cs
  rw [hs] at htaken hblames hlast
  let said? := p.recorded (s.1.complaint? (p.pool.addAll s.1.expr.literals))
  have hsaid : ∀ d ∈ said?, d.token ∈ taken.flatMap Cell.tokens ∨
      d.token = Statement.upcoming finish s.2 := by
    intro d hd
    exact hblames _ d (p.mem_of_recorded hd)
  have hheld : p.quiet = true → said? = none := by
    intro hquiet
    simp only [said?, Progress.recorded, hquiet, if_true]
  have herrors : (p.take s.1 s.2).errors = said?.toList ++ p.errors :=
    Progress.errors_complain_eq { p with pool := p.pool.addAll s.1.expr.literals } _
  by_cases hquiet : (p.take s.1 s.2).quiet = true
  · obtain ⟨dropped, hdropped, hfound, hends⟩ :=
      exists_dropped (s.1.last.kind = .semicolon) s.2 none
    rw [resume, if_pos hquiet] at hnext
    generalize recover (s.1.last.kind = .semicolon) s.2 none = recovered at *
    obtain ⟨rest, found⟩ := recovered
    subst hnext
    refine ⟨⟨taken, dropped, said?, found⟩, ?_, ⟨hne, ?_, ?_, hfound⟩, hheld, ?_, ?_⟩
    · rw [Round.cells, List.append_assoc, ← hdropped]
      exact htaken
    · rcases hends with hnil | ⟨hkind, rfl⟩ | ⟨x, hx, hkind⟩ | hprint
      · exact .inl hnil
      · rw [Round.cells, List.append_nil]
        obtain rfl : s.2 = rest := hdropped
        exact (hlast (of_decide_eq_true hkind)).imp id .inl
      · exact .inr (.inl ⟨x, List.mem_getLast?_append_of_mem_getLast? hx, hkind⟩)
      · exact .inr (.inr hprint)
    · rw [← hdropped]
      exact hsaid
    · exact Progress.quiet_complain { p.take s.1 s.2 with quiet := false } _
    · refine (Progress.errors_complain_eq { p.take s.1 s.2 with quiet := false } _).trans ?_
      rw [herrors, Round.reverse_errors, List.append_assoc]
      rfl
  · rw [Bool.not_eq_true] at hquiet
    rw [resume, if_neg (by simp [hquiet])] at hnext
    subst hnext
    refine ⟨⟨taken, [], said?, none⟩, ?_, ⟨hne, ?_, hsaid, rfl⟩, hheld, hquiet, ?_⟩
    · rw [Round.cells, List.append_nil]
      exact htaken
    · rw [Round.cells, List.append_nil]
      rcases last_of_quiet hs hquiet with hnil | hkind
      · exact .inl hnil
      · exact (hlast hkind).imp id .inl
    · rw [herrors, Round.reverse_errors]
      rfl

/-- What is read is read in rounds. -/
theorem exists_rounds (finish : Token) (p : Progress) (cells : List Cell) :
    ∃ rs : List Round, cells = rs.flatMap Round.cells ∧ Round.Follow finish p.quiet rs ∧
      (readFrom finish p cells).errors = (rs.flatMap Round.errors).reverse ++ p.errors := by
  fun_induction readFrom finish p cells with
  | case1 p => exact ⟨[], rfl, trivial, rfl⟩
  | case2 p c cs s next ih =>
    obtain ⟨rs, hcells, hfollow, herrors⟩ := ih
    obtain ⟨r, hround, hsound, hheld, hquiet, hrecorded⟩ := exists_round finish p c cs rfl rfl
    refine ⟨r :: rs, ?_, ⟨hheld, ?_, ?_⟩, ?_⟩
    · rw [List.flatMap_cons, ← hcells]
      exact hround
    · rw [← hcells]
      exact hsound
    · rw [← hquiet]
      exact hfollow
    · rw [herrors, hrecorded, List.flatMap_cons, List.reverse_append, List.append_assoc]

end Program

/-! ## How many there are -/

/-- Where a statement may end, or another one begin. -/
def Token.Kind.isBoundary (k : Token.Kind) : Bool :=
  k = .semicolon || k = .kwPrint

namespace Round

variable {finish : Token} {quiet : Bool} {r : Round} {rs : List Round}

/-- A round has at least one cell. -/
theorem Sound.exists_cons {rest : List Cell} (h : r.Sound finish rest) :
    ∃ c cs, r.cells = c :: cs := by
  obtain ⟨c, cs, hcons⟩ := List.exists_cons_of_ne_nil h.taken
  exact ⟨c, cs ++ r.dropped, by rw [cells, hcons, List.cons_append]⟩

/-- Without cells there are no rounds. -/
theorem Follow.eq_nil (h : Follow finish quiet rs) (hcells : rs.flatMap cells = []) : rs = [] := by
  cases rs with
  | nil => rfl
  | cons r rs =>
    obtain ⟨c, cs, hcons⟩ := h.2.1.exists_cons
    rw [List.flatMap_cons, hcons] at hcells
    cases hcells

/-- Each of the rounds is one before the cells that follow it. -/
theorem Follow.sound (h : Follow finish quiet rs) (hr : r ∈ rs) : ∃ rest, r.Sound finish rest := by
  induction rs generalizing quiet with
  | nil => cases hr
  | cons r' rs ih =>
    rcases List.mem_cons.mp hr with rfl | hr
    · exact ⟨_, h.2.1⟩
    · exact ih h.2.2 hr

/-- There is at most one round more than there are boundaries. A round that begins with `print` is
counted by that, so the boundary before it may be the same one. -/
theorem length_rounds_le (h : Follow finish quiet rs) :
    rs.length + ((rs.flatMap cells).take 1).countP (·.token.kind = .kwPrint) ≤
      1 + (rs.flatMap cells).countP (·.token.kind.isBoundary) := by
  induction rs generalizing quiet with
  | nil => simp
  | cons r rs ih =>
    obtain ⟨c, cs, hcons⟩ := h.2.1.exists_cons
    have hrest := ih h.2.2
    have hends := h.2.1.ends
    have hfirst : [c].countP (·.token.kind = .kwPrint) ≤ [c].countP (·.token.kind.isBoundary) := by
      refine List.countP_mono_left ?_
      intro d _ hd
      rw [Token.Kind.isBoundary, of_decide_eq_true hd]
      rfl
    have hsplit : (c :: cs).countP (·.token.kind.isBoundary) =
        [c].countP (·.token.kind.isBoundary) + cs.countP (·.token.kind.isBoundary) := by
      rw [← List.countP_append]
      rfl
    rw [List.flatMap_cons, List.countP_append, hcons, List.cons_append, List.take_succ_cons,
      List.take_zero, List.length_cons, hsplit]
    rcases hends with hnil | ⟨x, hx, hkind⟩ | ⟨x, hx, hkind⟩
    · obtain rfl := h.2.2.eq_nil hnil
      rw [List.length_nil]
      omega
    · -- the semicolon comes last, so it is not the `print` that came first
      have hlast : [c].countP (·.token.kind = .kwPrint) + 1 ≤
          [c].countP (·.token.kind.isBoundary) + cs.countP (·.token.kind.isBoundary) := by
        have hboundary : x.token.kind.isBoundary = true := by
          rw [Token.Kind.isBoundary, hkind]
          rfl
        rw [hcons] at hx
        cases cs with
        | nil =>
          obtain rfl : c = x := by simpa using hx
          simp [hkind, Token.Kind.isBoundary]
        | cons d cs =>
          have hmem : x ∈ d :: cs := List.mem_of_getLast? (by simpa using hx)
          have hpos : 0 < (d :: cs).countP (·.token.kind.isBoundary) :=
            List.countP_pos_iff.mpr ⟨x, hmem, hboundary⟩
          omega
      omega
    · have hprint : ((rs.flatMap cells).take 1).countP (·.token.kind = .kwPrint) = 1 := by
        obtain ⟨xs, hxs⟩ := List.head?_eq_some_iff.mp hx
        simp [hxs, hkind]
      omega

/-- The number of strays that the recovery of the last round records: one, or none. -/
def lastMet (rs : List Round) : Nat :=
  (rs.getLast?.bind met?).toList.length

/-- There is at most one error for each round, and one more if the last recovery meets a stray: what
recovery meets in any other round silences the round after it. -/
theorem length_errors_le (h : Follow finish quiet rs) (hne : rs ≠ []) :
    quiet.toNat + (rs.flatMap errors).length ≤ rs.length + lastMet rs := by
  induction rs generalizing quiet with
  | nil => exact absurd rfl hne
  | cons r rs ih =>
    have hsaid : quiet.toNat + r.said?.toList.length ≤ 1 := by
      cases quiet with
      | true => simp [h.1 rfl]
      | false => cases r.said? <;> simp
    have hmet : r.met?.toList.length = r.met?.isSome.toNat := by cases r.met? <;> rfl
    rw [List.flatMap_cons, List.length_append, errors, List.length_append, List.length_cons]
    cases rs with
    | nil =>
      simp only [List.flatMap_nil, List.length_nil, lastMet, List.getLast?_singleton,
        Option.bind_some]
      omega
    | cons r' rs =>
      have hrest := ih h.2.2 (List.cons_ne_nil r' rs)
      have hlast : lastMet (r :: r' :: rs) = lastMet (r' :: rs) := rfl
      rw [hlast]
      omega

end Round

/-! ## The errors of a source -/

namespace Feed

/-- What is wrong with a source before its first token. -/
def opening? (f : Feed) : Option Diagnostic :=
  f.leading.head?.map (⟨.stray, ·⟩)

/-- The tokens of a feed are read in these rounds, and these errors are recorded. -/
structure ReadIn (f : Feed) (rs : List Round) (es : List Diagnostic) : Prop where
  cells : f.cells = rs.flatMap Round.cells
  follow : Round.Follow f.finish f.opening?.isSome rs
  errors : es = f.opening?.toList ++ rs.flatMap Round.errors

/-- Every feed is read in rounds, whose errors are those of the program. -/
theorem exists_readIn (f : Feed) : ∃ rs, f.ReadIn rs (Program.ofFeed f).errors := by
  let begun : Program.Progress := Program.Progress.complain {} f.opening?
  have hquiet : begun.quiet = f.opening?.isSome := Program.Progress.quiet_complain {} _
  have hbegun : begun.errors = f.opening?.toList := by
    rw [Program.Progress.errors_complain_eq]
    exact List.append_nil _
  obtain ⟨rs, hcells, hfollow, herrors⟩ := Program.exists_rounds f.finish begun f.cells
  refine ⟨rs, hcells, hquiet ▸ hfollow, ?_⟩
  have hofFeed : (Program.ofFeed f).errors =
      (Program.readFrom f.finish begun f.cells).errors.reverse := rfl
  rw [hofFeed, herrors, hbegun, List.reverse_append, List.reverse_reverse]
  cases f.opening? <;> rfl

/-- All that is grouped after a token, or before the first one, is stray. -/
theorem stray_ofScanned (s : Token.Scanned) :
    (∀ t ∈ (ofScanned s).leading, t.kind = .stray) ∧
      ∀ c ∈ (ofScanned s).cells, ∀ t ∈ c.strays, t.kind = .stray := by
  obtain ⟨tokens, endLine⟩ := s
  simp only [ofScanned]
  induction tokens with
  | nil => exact ⟨List.forall_mem_nil _, List.forall_mem_nil _⟩
  | cons t ts ih =>
    rw [List.foldr_cons, prepend]
    split
    · rename_i hkind
      exact ⟨List.forall_mem_cons.mpr ⟨hkind, ih.1⟩, ih.2⟩
    · exact ⟨List.forall_mem_nil _, List.forall_mem_cons.mpr ih⟩

/-- Boundaries are not stray, so they are counted by the cells. -/
theorem countP_ofScanned (s : Token.Scanned) :
    s.tokens.countP (·.kind.isBoundary) =
      (ofScanned s).cells.countP (·.token.kind.isBoundary) := by
  obtain ⟨hleading, hstrays⟩ := stray_ofScanned s
  have hnone : ∀ ts : List Token, (∀ t ∈ ts, t.kind = .stray) →
      ts.countP (·.kind.isBoundary) = 0 := by
    intro ts hts
    refine List.countP_eq_zero.mpr ?_
    intro t ht
    rw [hts t ht]
    decide
  rw [← flatten_ofScanned s, List.countP_append, hnone _ hleading, Nat.zero_add]
  generalize (ofScanned s).cells = cells at hstrays
  induction cells with
  | nil => rfl
  | cons c cs ih =>
    obtain ⟨hc, hcs⟩ := List.forall_mem_cons.mp hstrays
    rw [List.flatMap_cons, List.countP_append, ih hcs, List.countP_cons, hnone _ hc, Nat.zero_add,
      List.countP_cons, Nat.add_comm]

variable {f : Feed} {rs : List Round} {es : List Diagnostic}

/-- A feed has no more errors than one, one for each boundary, and one for the last stray. -/
theorem ReadIn.length_le (h : f.ReadIn rs es) :
    es.length ≤ 1 + f.cells.countP (·.token.kind.isBoundary) + Round.lastMet rs := by
  have hopening : f.opening?.toList.length = f.opening?.isSome.toNat := by
    cases f.opening? <;> rfl
  rw [h.errors, List.length_append, hopening]
  by_cases hne : rs = []
  · have hle := Bool.toNat_le f.opening?.isSome
    rw [hne, List.flatMap_nil, List.length_nil]
    omega
  · have hrounds := Round.length_rounds_le h.follow
    have herrors := Round.length_errors_le h.follow hne
    rw [← h.cells] at hrounds
    omega

/-- Without strays recovery has nothing to record. -/
theorem ReadIn.lastMet_eq_zero (h : f.ReadIn rs es) (hstrays : ∀ c ∈ f.cells, c.strays = []) :
    Round.lastMet rs = 0 := by
  have hall : ∀ r ∈ rs, r.met? = none := by
    intro r hr
    rw [(h.follow.sound hr).choose_spec.met, List.flatMap_eq_nil_iff.mpr]
    · rfl
    · intro c hc
      apply hstrays
      rw [h.cells]
      exact List.mem_flatMap.mpr ⟨r, hr, List.mem_append_right _ hc⟩
  rw [Round.lastMet]
  cases hlast : rs.getLast? with
  | none => rfl
  | some r =>
    rw [Option.bind_some, hall r (List.mem_of_getLast? hlast)]
    rfl

end Feed

/-- The errors of a source that is rejected are those of its program. -/
theorem errors_of_compile {source : Bytes} {es : List Diagnostic}
    (h : compile source = .error es) :
    es = (Program.ofSource (Utf8.decode source)).errors := by
  rw [compile_eq] at h
  split at h
  · cases h
  · cases h
    rfl

/-- The errors of a rejected source are those of its rounds, after the first stray if the source
begins with one. They come to at most one more than there are semicolons and `print`s, and one more
again only if the last recovery meets a stray, so never in a source without strays. -/
theorem errors_by_rounds {source : Bytes} {es : List Diagnostic}
    (h : compile source = .error es) :
    ∃ rs, (Feed.ofScanned (Token.scan (Utf8.decode source))).ReadIn rs es ∧
      es.length ≤ 1 + (Token.scan (Utf8.decode source)).tokens.countP (·.kind.isBoundary) +
        Round.lastMet rs ∧
      ((∀ t ∈ (Token.scan (Utf8.decode source)).tokens, t.kind ≠ .stray) →
        es.length ≤ 1 + (Token.scan (Utf8.decode source)).tokens.countP (·.kind.isBoundary)) := by
  obtain ⟨rs, hread⟩ := Feed.exists_readIn (Feed.ofScanned (Token.scan (Utf8.decode source)))
  have hle := hread.length_le
  rw [← Feed.countP_ofScanned] at hle
  obtain rfl := errors_of_compile h
  refine ⟨rs, hread, hle, ?_⟩
  intro hnone
  have hstrays : ∀ c ∈ (Feed.ofScanned (Token.scan (Utf8.decode source))).cells,
      c.strays = [] := by
    rw [Feed.ofScanned_of_forall hnone]
    intro c hc
    obtain ⟨t, -, rfl⟩ := List.mem_map.mp hc
    rfl
  rw [hread.lastMet_eq_zero hstrays] at hle
  exact hle

/-- A source with a stray on the way to the end of a statement in error. -/
def strayed : Bytes :=
  Utf8.ofString "1 2 @"

/-- The statement and the recovery after it record an error each. -/
theorem compile_strayed :
    compile strayed =
      .error [⟨.expectEndOfExpression, ⟨.number, ['2'], 1⟩⟩, ⟨.stray, ⟨.stray, ['@'], 1⟩⟩] := by
  have herrors : (Program.ofSource (Utf8.decode strayed)).errors =
      [⟨.expectEndOfExpression, ⟨.number, ['2'], 1⟩⟩, ⟨.stray, ⟨.stray, ['@'], 1⟩⟩] := by
    decide +kernel
  rw [compile_eq, herrors]
  rfl

/-- Its two errors are those of the one round, so the last recovery has met a stray. -/
theorem errors_by_rounds_strayed :
    ∃ es rs, compile strayed = .error es ∧
      (Feed.ofScanned (Token.scan (Utf8.decode strayed))).ReadIn rs es ∧
      0 < Round.lastMet rs := by
  obtain ⟨rs, hread, hle, -⟩ := errors_by_rounds compile_strayed
  have hcount : (Token.scan (Utf8.decode strayed)).tokens.countP (·.kind.isBoundary) = 0 := by
    decide +kernel
  refine ⟨_, rs, compile_strayed, hread, ?_⟩
  rw [hcount] at hle
  simp only [List.length_cons, List.length_nil] at hle
  omega

/-- It has no semicolon and no `print`, and more than one error. -/
theorem stray_in_recovery :
    ∃ es, compile strayed = .error es ∧
      1 + (Token.scan (Utf8.decode strayed)).tokens.countP (·.kind.isBoundary) < es.length :=
  ⟨_, compile_strayed, by decide +kernel⟩

end Lox
