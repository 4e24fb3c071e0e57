import Lox.Proofs.Blame
import Lox.Proofs.Joining
import Lox.Proofs.Lines

/-!
# Recovery

A program may be wrong in several places. After an error the reader goes on in the same statement,
without a complaint, and then passes over tokens until a semicolon or a `print`. What comes after a
semicolon is thereby read for itself, and an error in it is found again: this is
`exists_error_of_joined`.

It holds only if the semicolon ends the statement before it. A semicolon where an operand is due is
taken for that operand. The statement then goes on, and takes a token after it that it can use: a
second semicolon, an operator, or a parenthesis for a group that is open. `Severed before next` says
that none of this is so, and `error_lost_after_gap` is a case where it is.
-/

namespace Lox

/-- A kind of token after which an operand is due, within an expression. -/
def Token.Kind.opens (k : Token.Kind) : Bool :=
  k = .leftParen || (UnaryOp.ofKind? k).isSome || (Operator.ofKind? k).isSome

/-- Between the tokens `before` of an expression and the token `next` a semicolon ends the
expression. -/
structure Expr.Severed (before : List Token) (next : Token) : Prop where
  /-- Another semicolon does not follow one that was taken for an operand. -/
  semicolon : next.kind = .semicolon → ∃ t ∈ before.getLast?, t.kind.opens = false
  /-- An operator does not go on with the expression. -/
  operator : (Operator.ofKind? next.kind).isSome → ∀ t ∈ before.getLast?, t.kind.opens = false
  /-- A parenthesis does not close a group of the expression. -/
  paren : next.kind = .rightParen →
    (∀ t ∈ before.getLast?, t.kind.opens = false) ∨ ∀ t ∈ before, t.kind ≠ .leftParen

/-- Between the tokens `before` of a program and the token `next` a semicolon ends the statement. -/
structure Severed (before : List Token) (next : Token) : Prop extends Expr.Severed before next where
  /-- Another semicolon does not follow one that was taken for a whole expression. -/
  statement : next.kind = .semicolon → ∀ t ∈ before.getLast?,
    t.kind ≠ .semicolon ∧ t.kind ≠ .kwPrint

namespace Expr

variable {finish next : Token} {e : Expr} {fs : List Frame} {semi d : Cell}
  {front tail ds : List Cell}

/-! ## The last token -/

/-- A completed frame ends with the last token of its operand. -/
theorem Frame.last_complete (next : Token) (f : Frame) (e : Expr) :
    (f.complete next e).last = e.last := by
  cases f <;> rfl

/-- The operand that a token was put after. -/
def Settled.operand : Settled → Expr
  | shift _ e _ => e
  | close _ e _ => e
  | done e => e

/-- The frames that are left. -/
def Settled.frames : Settled → List Frame
  | shift _ _ fs => fs
  | close _ _ fs => fs
  | done _ => []

/-- Whatever the next token leads to, the operand before it ends with the same token. -/
theorem last_settle (next : Token) (open_ : Bool) (e : Expr) (fs : List Frame) :
    (settle next open_ e fs).operand.last = e.last := by
  refine settle_induction (motive := fun e _ s => s.operand.last = e.last) ?_ ?_ ?_ ?_ open_ e fs
  · intro op e fs _
    rfl
  · intro paren e fs _
    rfl
  · intro e
    rfl
  · intro f e fs s ih
    exact ih.trans (f.last_complete next e)

/-- No frame is opened when an operand is settled. -/
theorem frames_settle (next : Token) (open_ : Bool) (e : Expr) (fs : List Frame) :
    (settle next open_ e fs).frames ⊆ fs := by
  refine settle_induction (motive := fun _ fs s => s.frames ⊆ fs) ?_ ?_ ?_ ?_ open_ e fs
  · intro op e fs _
    exact List.Subset.refl fs
  · intro paren e fs _
    exact List.subset_cons_self _ fs
  · intro e
    exact List.Subset.refl []
  · intro f e fs s ih
    exact List.subset_cons_of_subset f ih

/-- The last token of the operand that has just been read, or `prev`. -/
def Mode.last (prev : Token) : Mode → Token
  | operand => prev
  | after _ e => e.last

/-- A token that is taken is the last token. -/
theorem Moves.last {c : Cell} {mode mode' : Mode} {fs' : List Frame}
    (h : Moves c mode fs mode' fs') : mode'.last c.token = c.token := by
  cases h <;> rfl

/-- What is taken before something else is left ends with the last token of the expression. -/
theorem exists_taken {cells : List Cell} (mode : Mode) (prev : Token)
    (hrest : (parseFrom finish cells mode fs).2 ≠ []) :
    ∃ taken, cells = taken ++ (parseFrom finish cells mode fs).2 ∧
      (parseFrom finish cells mode fs).1.last =
        (taken.map Cell.token).getLastD (mode.last prev) := by
  induction cells generalizing mode fs prev with
  | nil => cases mode <;> exact absurd rfl hrest
  | cons c cs ih =>
    rcases parseFrom_cons finish c cs mode fs with
      ⟨mode', fs', hmoves, heq⟩ | ⟨open_, e, e', rfl, hdone, heq⟩
    · rw [heq] at hrest ⊢
      obtain ⟨taken, htaken, hlast⟩ := ih mode' c.token hrest
      refine ⟨c :: taken, by rw [List.cons_append, ← htaken], ?_⟩
      rw [List.map_cons, List.getLastD_cons, hlast, hmoves.last]
    · have hlast := last_settle c.token open_ e fs
      rw [hdone] at hlast
      rw [heq]
      exact ⟨[], rfl, hlast⟩

/-! ## The semicolon -/

/-- A token that is no operator, and no parenthesis that closes a group, ends the expression. -/
theorem exists_settle_eq_done (hop : Operator.ofKind? next.kind = none)
    (hparen : next.kind = .rightParen → ∀ paren, .group paren ∉ fs) (open_ : Bool) (e : Expr) :
    ∃ e', settle next open_ e fs = .done e' := by
  revert hparen
  refine settle_induction
    (motive := fun _ fs s =>
      (next.kind = .rightParen → ∀ paren, .group paren ∉ fs) → ∃ e', s = .done e')
    ?_ ?_ ?_ ?_ open_ e fs
  · intro op e fs hsome _
    rw [hop] at hsome
    cases hsome
  · intro paren e fs hkind hparen
    exact absurd List.mem_cons_self (hparen hkind paren)
  · intro e _
    exact ⟨e, rfl⟩
  · intro f e fs s ih hparen
    exact ih fun hkind paren hmem => hparen hkind paren (List.mem_cons_of_mem f hmem)

/-- Only operators are shifted. -/
theorem ofKind?_of_shift {open_ : Bool} {e' : Expr} {fs' : List Frame} {op : Operator}
    (h : settle next open_ e fs = .shift op e' fs') : Operator.ofKind? next.kind = some op := by
  revert h
  refine settle_induction
    (motive := fun _ _ s => s = .shift op e' fs' → Operator.ofKind? next.kind = some op)
    ?_ ?_ ?_ ?_ open_ e fs
  · rintro op e fs hop ⟨⟩
    exact hop
  · intro paren e fs _ h
    cases h
  · intro e h
    cases h
  · intro f e fs s ih
    exact ih

/-- Where an operand is due after a token, the token calls for it. -/
theorem Moves.opens {c : Cell} {mode : Mode} {fs' : List Frame} (h : Moves c mode fs .operand fs') :
    c.token.kind.opens = true := by
  cases h with
  | group hstart => simp [Token.Kind.opens, Grammar.start_eq_group_iff.mp hstart]
  | unary hstart => simp [Token.Kind.opens, Grammar.start_eq_unary_iff.mp hstart]
  | shift hshift => simp [Token.Kind.opens, ofKind?_of_shift hshift]

/-- The groups that are open after a token were open before, or it opens one. -/
theorem Moves.groups {c paren : Cell} {mode mode' : Mode} {fs' : List Frame}
    (h : Moves c mode fs mode' fs') (hparen : .group paren ∈ fs') :
    .group paren ∈ fs ∨ c.token.kind = .leftParen := by
  cases h with
  | literal _ => exact .inl hparen
  | group hstart => exact .inr (Grammar.start_eq_group_iff.mp hstart)
  | unary _ =>
    refine .inl (List.mem_of_ne_of_mem ?_ hparen)
    nofun
  | missing _ => exact .inl hparen
  | @shift open_ e e' fs fs' op hshift =>
    have hframes := frames_settle c.token open_ e fs
    rw [hshift] at hframes
    refine .inl (hframes (List.mem_of_ne_of_mem ?_ hparen))
    cases op <;> nofun
  | @close open_ e e' fs fs' _ hclose =>
    have hframes := frames_settle c.token open_ e fs
    rw [hclose] at hframes
    exact .inl (hframes hparen)

/-- Reading comes to a semicolon where an operand is due. It takes the semicolon for that, and goes
on with these frames. -/
structure TakesGap (finish : Token) (front : List Cell) (semi : Cell) (tail : List Cell)
    (mode : Mode) (fs fs' : List Frame) : Prop where
  read : parseFrom finish (front ++ semi :: tail) mode fs =
    parseFrom finish tail (.after false (.missing semi)) fs'
  /-- The operand is due from the start, or the token before calls for it. -/
  due : (front = [] ∧ mode = .operand ∧ fs' = fs) ∨
    ∃ t ∈ (front.map Cell.token).getLast?, t.kind.opens = true
  groups : ∀ paren, .group paren ∈ fs' →
    .group paren ∈ fs ∨ ∃ t ∈ front.map Cell.token, t.kind = .leftParen

/-- Reading stops at a semicolon at the latest, or takes it for an operand. -/
theorem stops_or_takesGap (finish : Token) (front tail : List Cell)
    (hsemi : semi.token.kind = .semicolon) (mode : Mode) (fs : List Frame) :
    (∃ r, (parseFrom finish (front ++ semi :: tail) mode fs).2 = r ++ semi :: tail) ∨
      ∃ fs', TakesGap finish front semi tail mode fs fs' := by
  induction front generalizing mode fs with
  | nil =>
    cases mode with
    | operand =>
      have hstart : start semi.token = .nothing := by simp [start, hsemi, UnaryOp.ofKind?]
      refine .inr ⟨fs, ?_, .inl ⟨rfl, rfl, rfl⟩, fun paren hparen => .inl hparen⟩
      simp only [List.nil_append, parseFrom, hstart]
    | after open_ e =>
      have hop : Operator.ofKind? semi.token.kind = none := by
        rw [hsemi]
        rfl
      have hparen : semi.token.kind = .rightParen → ∀ paren, .group paren ∉ fs := by
        intro hright
        rw [hsemi] at hright
        cases hright
      obtain ⟨e', hdone⟩ := exists_settle_eq_done hop hparen open_ e
      refine .inl ⟨[], ?_⟩
      simp only [List.nil_append, parseFrom, hdone]
  | cons c front ih =>
    rcases parseFrom_cons finish c (front ++ semi :: tail) mode fs with
      ⟨mode', fs', hmoves, heq⟩ | ⟨open_, e, e', rfl, -, heq⟩
    · rcases ih mode' fs' with ⟨r, hr⟩ | ⟨fs'', hgap⟩
      · exact .inl ⟨r, by rw [List.cons_append, heq, hr]⟩
      · refine .inr ⟨fs'', heq.trans hgap.read, .inr ?_, ?_⟩
        · rcases hgap.due with ⟨rfl, rfl, -⟩ | ⟨t, ht, hopens⟩
          · exact ⟨c.token, rfl, hmoves.opens⟩
          · exact ⟨t, List.mem_getLast?_cons ht, hopens⟩
        · intro paren hparen
          rcases hgap.groups paren hparen with hold | ⟨t, ht, hkind⟩
          · rcases hmoves.groups hold with hold | hkind
            · exact .inl hold
            · exact .inr ⟨c.token, List.mem_cons_self, hkind⟩
          · exact .inr ⟨t, List.mem_cons_of_mem c.token ht, hkind⟩
    · exact .inl ⟨c :: front, by rw [List.cons_append, heq]⟩

/-- If something is left after an expression, then the last token of the expression stands before
it. -/
theorem exists_last {cells : List Cell} (hrest : (parse finish cells).2 ≠ []) :
    ∃ taken c, cells = taken ++ c :: (parse finish cells).2 ∧
      (parse finish cells).1.last = c.token := by
  obtain ⟨taken, htaken, hlast⟩ := exists_taken .operand finish hrest
  rcases List.eq_nil_or_concat' taken with rfl | ⟨taken, c, rfl⟩
  · -- reading takes at least one token
    cases cells with
    | nil => exact absurd rfl hrest
    | cons c cs =>
      have hlt := length_parse_lt finish c cs
      rw [← show c :: cs = (parse finish (c :: cs)).2 from htaken] at hlt
      exact absurd hlt (Nat.lt_irrefl _)
  · refine ⟨taken, c, ?_, ?_⟩
    · rw [List.append_assoc] at htaken
      exact htaken
    · rw [List.map_append, List.map_singleton, List.getLastD_concat] at hlast
      exact hlast

/-- An expression before a severing semicolon leaves all that follows it. If it leaves no more than
that, then the semicolon was taken for an operand. -/
theorem parse_severed (finish : Token) (hsemi : semi.token.kind = .semicolon)
    (h : Severed (front.map Cell.token) d.token) (ds : List Cell) :
    ∃ r, (parse finish (front ++ semi :: d :: ds)).2 = r ++ d :: ds ∧
      (r = [] → front = [] ∨ ∃ t ∈ (front.map Cell.token).getLast?, t.kind.opens = true) := by
  rcases stops_or_takesGap finish front (d :: ds) hsemi .operand [] with ⟨r, hr⟩ | ⟨fs', hgap⟩
  · refine ⟨r ++ [semi], ?_, fun hnil => ?_⟩
    · rw [List.append_assoc]
      exact hr
    · simp at hnil
  · have hdone : ∃ e', settle d.token false (.missing semi) fs' = .done e' := by
      rcases hgap.due with ⟨-, -, rfl⟩ | ⟨t, ht, hopens⟩
      · exact ⟨_, rfl⟩
      · refine exists_settle_eq_done ?_ ?_ false _
        · by_contra hsome
          have hclosed := h.operator (Option.isSome_iff_ne_none.mpr hsome) t ht
          rw [hopens] at hclosed
          cases hclosed
        · intro hkind paren hmem
          rcases h.paren hkind with hclosed | hnone
          · rw [hclosed t ht] at hopens
            cases hopens
          · rcases hgap.groups paren hmem with hmem | ⟨u, hu, hleft⟩
            · cases hmem
            · exact hnone u hu hleft
    obtain ⟨e', hdone⟩ := hdone
    refine ⟨[], ?_, fun _ => ?_⟩
    · have hread : parse finish (front ++ semi :: d :: ds) = (e', d :: ds) := by
        refine hgap.read.trans ?_
        simp only [parseFrom, hdone]
      rw [hread]
      rfl
    · exact hgap.due.imp (fun hstart => hstart.1) id

end Expr

/-! ## The statement before the semicolon -/

/-- What holds of a statement holds of the expression after its `print`. -/
theorem Severed.of_print {w next : Token} {before : List Token} (h : Severed (w :: before) next)
    (hw : w.kind = .kwPrint) : Expr.Severed before next where
  semicolon hkind := by
    obtain ⟨t, ht, hclosed⟩ := h.semicolon hkind
    cases before with
    | nil =>
      obtain rfl : w = t := by simpa using ht
      exact absurd hw (h.statement hkind w ht).2
    | cons u before =>
      rw [List.getLast?_cons_cons] at ht
      exact ⟨t, ht, hclosed⟩
  operator hsome t ht := h.operator hsome t (List.mem_getLast?_cons ht)
  paren hkind := by
    rcases h.paren hkind with hclosed | hnone
    · exact .inl fun t ht => hclosed t (List.mem_getLast?_cons ht)
    · exact .inr fun t ht => hnone t (List.mem_cons_of_mem w ht)

namespace Statement

variable {semi c d : Cell} {front cs : List Cell}

/-- After an expression before a severing semicolon, a statement ends before what follows the
semicolon. It ends at a semicolon, or in error. -/
theorem readEnding_severed (finish : Token) (print : Bool) (hsemi : semi.token.kind = .semicolon)
    (h : Expr.Severed (front.map Cell.token) d.token) (ds : List Cell) :
    ∃ taken x r, front ++ [semi] = taken ++ x :: r ∧
      (readEnding finish print (Expr.parse finish (front ++ semi :: d :: ds)).2).2 = r ++ d :: ds ∧
      ((x.token.kind = .semicolon ∧
          (readEnding finish print (Expr.parse finish (front ++ semi :: d :: ds)).2).1 =
            .semicolon x) ∨
        ((Expr.parse finish (front ++ semi :: d :: ds)).1.last = x.token ∧
          ∃ t, (readEnding finish print (Expr.parse finish (front ++ semi :: d :: ds)).2).1 =
            .unended t)) := by
  obtain ⟨r, hr, hnil⟩ := Expr.parse_severed finish hsemi h ds
  have hrest : (Expr.parse finish (front ++ semi :: d :: ds)).2 ≠ [] := by simp [hr]
  obtain ⟨taken, x, hcells, hlast⟩ := Expr.exists_last hrest
  rw [hr] at hcells ⊢
  have htaken : front ++ [semi] = taken ++ x :: r := by
    refine (List.append_left_inj (d :: ds)).mp ?_
    simpa using hcells
  cases r with
  | nil =>
    have hne : d.token.kind ≠ .semicolon := by
      intro hkind
      obtain ⟨t, ht, hclosed⟩ := h.semicolon hkind
      rcases hnil rfl with rfl | ⟨u, hu, hopens⟩
      · cases ht
      · rw [Option.mem_unique ht hu, hopens] at hclosed
        cases hclosed
    rw [List.nil_append, readEnding_of_ne hne]
    exact ⟨taken, x, [], htaken, rfl, .inr ⟨hlast, d.token, rfl⟩⟩
  | cons y r =>
    by_cases hkind : y.token.kind = .semicolon
    · rw [List.cons_append, readEnding_semicolon hkind]
      exact ⟨taken ++ [x], y, r, by simp [htaken], rfl, .inl ⟨hkind, rfl⟩⟩
    · rw [List.cons_append, readEnding_of_ne hkind]
      exact ⟨taken, x, y :: r, htaken, rfl, .inr ⟨hlast, y.token, rfl⟩⟩

/-- The last token of a statement is the semicolon that ends it, or else the last of its
expression. -/
theorem last_of_ending {s : Statement} {x : Cell}
    (h : (x.token.kind = .semicolon ∧ s.ending = .semicolon x) ∨
      (s.expr.last = x.token ∧ ∃ t, s.ending = .unended t)) :
    s.last = x.token ∧ (x.token.kind = .semicolon ∨ ∃ t, s.ending = .unended t) := by
  unfold last
  rcases h with ⟨hkind, hending⟩ | ⟨hlast, t, hending⟩
  · rw [hending]
    exact ⟨rfl, .inl hkind⟩
  · rw [hending]
    exact ⟨hlast, .inr ⟨t, rfl⟩⟩

/-- A statement before a severing semicolon takes nothing that follows it. Its last token stands
before what is left, and if that is no semicolon, then the statement is in error. -/
theorem parse_severed (finish : Token) (hsemi : semi.token.kind = .semicolon)
    (hcells : c :: cs = front ++ [semi]) (h : Severed (front.map Cell.token) d.token)
    (ds : List Cell) :
    ∃ taken x r, c :: cs = taken ++ x :: r ∧ (parse finish c (cs ++ d :: ds)).2 = r ++ d :: ds ∧
      (parse finish c (cs ++ d :: ds)).1.last = x.token ∧
      (x.token.kind = .semicolon ∨
        ∃ t, (parse finish c (cs ++ d :: ds)).1.ending = .unended t) := by
  by_cases hprint : c.token.kind = .kwPrint
  · obtain ⟨front', rfl, hcs⟩ : ∃ front', front = c :: front' ∧ cs = front' ++ [semi] := by
      cases front with
      | nil =>
        obtain ⟨rfl, -⟩ := List.cons.inj hcells
        rw [hsemi] at hprint
        cases hprint
      | cons c' front' =>
        obtain ⟨rfl, hcs⟩ := List.cons.inj hcells
        exact ⟨front', rfl, hcs⟩
    have hall : cs ++ d :: ds = front' ++ semi :: d :: ds := by
      rw [hcs, List.append_assoc]
      rfl
    obtain ⟨taken, x, r, htaken, hrest, hend⟩ :=
      readEnding_severed finish true hsemi (h.of_print hprint) ds
    rw [parse_print hprint, hall]
    exact ⟨c :: taken, x, r, by rw [hcs, htaken, List.cons_append], hrest, last_of_ending hend⟩
  · have hall : c :: (cs ++ d :: ds) = front ++ semi :: d :: ds := by
      rw [← List.cons_append, hcells, List.append_assoc]
      rfl
    obtain ⟨taken, x, r, htaken, hrest, hend⟩ :=
      readEnding_severed finish false hsemi h.toSevered ds
    rw [parse_expr hprint, hall]
    exact ⟨taken, x, r, hcells.trans htaken, hrest, last_of_ending hend⟩

/-- A statement that does not end is complained about. -/
theorem complaint?_of_unended {s : Statement} {t : Token} (h : s.ending = .unended t)
    (pool : Pool) : s.complaint? pool ≠ none := by
  intro hnone
  simp only [complaint?, Option.orElse_eq_orElse, Option.orElse_eq_or,
    Option.or_eq_none_iff] at hnone
  obtain ⟨-, hend⟩ := Expr.exists_tree_of_findThen hnone.2
  rw [endComplaint?, h] at hend
  cases hend

end Statement

/-! ## The statements before the semicolon -/

namespace Program

variable {finish : Token} {semi d : Cell} {front pre r tail ds : List Cell} {p : Progress}

/-- After the cells `pre` a statement begins with the cells `r`. -/
def Begins (pre r : List Cell) : Prop :=
  pre = [] ∨ (∃ x ∈ pre.getLast?, x.token.kind = .semicolon) ∨
    ∃ x ∈ r.head?, x.token.kind = .kwPrint

/-- Recovery does not go beyond a semicolon. -/
theorem recover_severed (pre tail : List Cell) (afterSemicolon : Bool)
    (hafter : afterSemicolon = true → ∃ x ∈ pre.getLast?, x.token.kind = .semicolon)
    (hnil : r = [] → afterSemicolon = true) (hlast : ∀ x ∈ r.getLast?, x.token.kind = .semicolon)
    (hplain : ∀ c ∈ r, c.complaint? = none) :
    ∃ dropped r', r = dropped ++ r' ∧ recover afterSemicolon (r ++ tail) none = (r' ++ tail, none) ∧
      Begins (pre ++ dropped) r' := by
  induction r generalizing pre afterSemicolon with
  | nil =>
    obtain rfl := hnil rfl
    refine ⟨[], [], rfl, ?_, ?_⟩
    · cases tail <;> rfl
    · rw [List.append_nil]
      exact .inr (.inl (hafter rfl))
  | cons c cs ih =>
    obtain ⟨hc, hcs⟩ := List.forall_mem_cons.mp hplain
    rw [List.cons_append, recover]
    split
    · rename_i hstop
      refine ⟨[], c :: cs, rfl, rfl, ?_⟩
      rw [List.append_nil]
      rcases Bool.or_eq_true_iff.mp hstop with hsemicolon | hprint
      · exact .inr (.inl (hafter hsemicolon))
      · exact .inr (.inr ⟨c, rfl, of_decide_eq_true hprint⟩)
    · have hfound : ((none : Option Diagnostic) <|> c.complaint?) = none := hc
      rw [hfound]
      obtain ⟨dropped, r', rfl, hrecover, hbegins⟩ := ih (pre ++ [c]) (c.token.kind = .semicolon)
        (fun hkind => ⟨c, by simp, of_decide_eq_true hkind⟩)
        (fun hempty => decide_eq_true (hlast c (by simp [hempty])))
        (fun x hx => hlast x (List.mem_getLast?_cons hx)) hcs
      refine ⟨c :: dropped, r', rfl, hrecover, ?_⟩
      rwa [List.append_assoc] at hbegins

/-- What is severed from a program is severed from the statement that begins last. -/
theorem severed_of_begins {next : Token} (h : Severed ((pre ++ front).map Cell.token) next)
    (hsemi : semi.token.kind = .semicolon) (hbegins : Begins pre (front ++ [semi])) :
    Severed (front.map Cell.token) next := by
  rw [List.map_append] at h
  have hlast : ∀ t ∈ (front.map Cell.token).getLast?,
      t ∈ (pre.map Cell.token ++ front.map Cell.token).getLast? :=
    fun t ht => List.mem_getLast?_append_of_mem_getLast? ht
  refine ⟨⟨?_, ?_, ?_⟩, ?_⟩
  · intro hkind
    obtain ⟨t, ht, hclosed⟩ := h.semicolon hkind
    have hstatement := h.statement hkind t ht
    rcases List.eq_nil_or_concat' front with rfl | ⟨front, c, rfl⟩
    · -- the statement would be the semicolon alone, which does not begin after another token
      rw [List.map_nil, List.append_nil, List.getLast?_map] at ht
      obtain ⟨x, hx, rfl⟩ := Option.map_eq_some_iff.mp ht
      rcases hbegins with rfl | ⟨y, hy, hsemicolon⟩ | ⟨y, hy, hprint⟩
      · cases hx
      · rw [Option.mem_unique hx hy] at hstatement
        exact absurd hsemicolon hstatement.1
      · obtain rfl : semi = y := by simpa using hy
        rw [hsemi] at hprint
        cases hprint
    · refine ⟨t, ?_, hclosed⟩
      simpa using ht
  · exact fun hsome t ht => h.operator hsome t (hlast t ht)
  · intro hkind
    rcases h.paren hkind with hclosed | hnone
    · exact .inl fun t ht => hclosed t (hlast t ht)
    · exact .inr fun t ht => hnone t (List.mem_append_right _ ht)
  · exact fun hkind t ht => h.statement hkind t (hlast t ht)

/-- A statement that is taken without a complaint was not left without an end. -/
theorem ending_of_take {s : Statement} {rest : List Cell} (h : (p.take s rest).quiet = false)
    (t : Token) : s.ending ≠ .unended t := by
  intro hending
  have hcomplaint := Statement.complaint?_of_unended hending (p.pool.addAll s.expr.literals)
  obtain ⟨d, hd⟩ := Option.ne_none_iff_exists'.mp hcomplaint
  simp [Progress.take, hd, Progress.complain] at h

/-- After a statement whose last token is `x`, reading goes on with a statement, no later than after
the next semicolon. -/
theorem resume_severed {s : Statement} {x : Cell} (pre tail : List Cell)
    (hx : s.last = x.token) (hquiet : p.quiet = false → x.token.kind = .semicolon)
    (hnil : r = [] → x.token.kind = .semicolon)
    (hlast : ∀ y ∈ r.getLast?, y.token.kind = .semicolon) (hplain : ∀ c ∈ r, c.complaint? = none) :
    ∃ p' dropped r', resume p s (r ++ tail) = (p', r' ++ tail) ∧ p'.quiet = false ∧
      p'.pool = p.pool ∧ r = dropped ++ r' ∧ Begins (pre ++ [x] ++ dropped) r' := by
  unfold resume
  split
  · obtain ⟨dropped, r', hr, hrecover, hbegins⟩ := recover_severed (pre ++ [x]) tail
      (s.last.kind = .semicolon) (fun hkind => ⟨x, by simp, hx ▸ of_decide_eq_true hkind⟩)
      (fun hempty => decide_eq_true (hx ▸ hnil hempty)) hlast hplain
    simp only [hrecover]
    exact ⟨_, dropped, r', rfl, rfl, rfl, hr, hbegins⟩
  · rename_i hnot
    have hp : p.quiet = false := by simpa using hnot
    refine ⟨p, [], r, rfl, hp, rfl, rfl, .inr (.inl ⟨x, ?_, hquiet hp⟩)⟩
    simp

/-- One statement before a severing semicolon is read, and reading goes on with the next one, no
later than after the semicolon. -/
theorem readFrom_step_severed (finish : Token) (hsemi : semi.token.kind = .semicolon)
    (hplain : ∀ c ∈ front ++ [semi], c.complaint? = none)
    (h : Severed ((pre ++ front).map Cell.token) d.token) (hbegins : Begins pre (front ++ [semi]))
    (p : Progress) (ds : List Cell) :
    ∃ p' taken r vs, readFrom finish p (front ++ [semi] ++ d :: ds) =
        readFrom finish p' (r ++ d :: ds) ∧
      front ++ [semi] = taken ++ r ∧ taken ≠ [] ∧ Begins (pre ++ taken) r ∧ p'.quiet = false ∧
      p'.pool = p.pool.addAll vs ∧ Pool.Regular vs := by
  obtain ⟨c, cs, hcs⟩ : ∃ c cs, c :: cs = front ++ [semi] := by
    cases front with
    | nil => exact ⟨semi, [], rfl⟩
    | cons c front => exact ⟨c, front ++ [semi], rfl⟩
  obtain ⟨taken, x, r, htaken, hrest, hx, hends⟩ :=
    Statement.parse_severed finish hsemi hcs (severed_of_begins h hsemi hbegins) ds
  have hfrom := @Statement.parse_from (fun _ => True) finish c (cs ++ d :: ds) trivial
    fun _ _ => ⟨trivial, fun _ _ => trivial⟩
  generalize hs : Statement.parse finish c (cs ++ d :: ds) = s at hrest hx hends hfrom
  -- what is left ends with the semicolon
  have hr : front ++ [semi] = (taken ++ [x]) ++ r := by
    rw [← hcs, htaken]
    simp
  have hlast : ∀ y ∈ r.getLast?, y.token.kind = .semicolon := by
    intro y hy
    have hmem : y ∈ ((taken ++ [x]) ++ r).getLast? := List.mem_getLast?_append_of_mem_getLast? hy
    obtain rfl : semi = y := by simpa [← hr] using hmem
    exact hsemi
  have hnil : r = [] → x.token.kind = .semicolon := by
    rintro rfl
    rw [List.append_nil] at hr
    obtain rfl : semi = x := by simpa using (List.append_inj' hr rfl).2
    exact hsemi
  have hquiet : (p.take s.1 s.2).quiet = false → x.token.kind = .semicolon := by
    intro hno
    rcases hends with hkind | ⟨t, hunended⟩
    · exact hkind
    · exact absurd hunended (ending_of_take hno t)
  obtain ⟨p', dropped, r', hresume, hp', hpool, rfl, hbegins'⟩ :=
    resume_severed (pre ++ taken) (d :: ds) hx hquiet hnil hlast fun c hc =>
      hplain c (hr ▸ List.mem_append_right _ hc)
  rw [← hrest] at hresume
  refine ⟨p', taken ++ [x] ++ dropped, r', s.1.expr.literals, ?_, ?_, by simp, ?_, hp', ?_,
    hfrom.1.expr.regular⟩
  · rw [← hcs, List.cons_append, readFrom]
    simp only [hs, hresume]
  · rw [hr, List.append_assoc (taken ++ [x])]
  · simpa only [List.append_assoc] using hbegins'
  · rw [hpool, Progress.pool_take]

/-- The statements up to a severing semicolon are read without a look at what follows it. The rest
is then read as it would be at first, though with more in the pool. -/
theorem readFrom_severed (finish : Token) (hsemi : semi.token.kind = .semicolon)
    (hplain : ∀ c ∈ front ++ [semi], c.complaint? = none)
    (h : Severed (front.map Cell.token) d.token) (ds : List Cell)
    (hcells : front ++ [semi] = pre ++ r) (hbegins : Begins pre r) (hquiet : p.quiet = false) :
    ∃ p' vs, readFrom finish p (r ++ d :: ds) = readFrom finish p' (d :: ds) ∧ p'.quiet = false ∧
      p'.pool = p.pool.addAll vs ∧ Pool.Regular vs := by
  induction hn : r.length using Nat.strongRecOn generalizing pre r p with
  | _ n ih =>
    rcases List.eq_nil_or_concat' r with rfl | ⟨front', y, rfl⟩
    · exact ⟨p, [], rfl, hquiet, rfl, List.forall_mem_nil _⟩
    rw [← List.append_assoc] at hcells
    obtain ⟨rfl, hy⟩ := List.append_inj' hcells rfl
    obtain rfl : semi = y := by simpa using hy
    have hplain' : ∀ c ∈ front' ++ [semi], c.complaint? = none := by
      intro c hc
      refine hplain c ?_
      rw [List.append_assoc]
      exact List.mem_append_right pre hc
    obtain ⟨p₁, taken, r', vs, hread, hr, hne, hbegins', hp₁, hpool, hvs⟩ :=
      readFrom_step_severed finish hsemi hplain' h hbegins p ds
    have hlength : r'.length < n := by
      have hpos := List.length_pos_iff.mpr hne
      rw [hr, List.length_append] at hn
      omega
    have hrest : pre ++ front' ++ [semi] = (pre ++ taken) ++ r' := by
      rw [List.append_assoc, hr, List.append_assoc]
    obtain ⟨p₂, ws, hread', hp₂, hpool', hws⟩ := ih _ hlength hrest hbegins' hp₁ rfl
    refine ⟨p₂, vs ++ ws, hread.trans hread', hp₂, ?_, List.forall_mem_append.mpr ⟨hvs, hws⟩⟩
    rw [hpool', hpool, Pool.addAll_append]

/-! ## What follows the semicolon -/

/-- Progress with more errors before. -/
def Progress.backed (es : List Diagnostic) (p : Progress) : Progress :=
  { p with errors := p.errors ++ es }

/-- Earlier errors make no difference to a complaint. -/
theorem Progress.complain_backed (es : List Diagnostic) (p : Progress) (d? : Option Diagnostic) :
    (p.backed es).complain d? = (p.complain d?).backed es := by
  cases d? with
  | none => rfl
  | some d =>
    obtain ⟨actions, pool, errors, quiet⟩ := p
    cases quiet <;> rfl

/-- Earlier errors make no difference to taking a statement. -/
theorem Progress.take_backed (es : List Diagnostic) (p : Progress) (s : Statement)
    (rest : List Cell) : (p.backed es).take s rest = (p.take s rest).backed es := by
  have hcomplain (pool : Pool) :
      { p.backed es with pool := pool }.complain (s.complaint? pool) =
        ({ p with pool := pool }.complain (s.complaint? pool)).backed es :=
    complain_backed es { p with pool := pool } (s.complaint? pool)
  have hpool : (p.backed es).pool = p.pool := rfl
  simp only [take, hpool, hcomplain]
  rfl

/-- Earlier errors make no difference to going on after a statement. -/
theorem resume_backed (es : List Diagnostic) (p : Progress) (s : Statement) (rest : List Cell) :
    resume (p.backed es) s rest = ((resume p s rest).1.backed es, (resume p s rest).2) := by
  have hquiet : (p.backed es).quiet = p.quiet := rfl
  simp only [resume, hquiet]
  split
  · rw [← Progress.complain_backed]
    rfl
  · rfl

/-- Errors do not matter to what is read after them. -/
theorem readFrom_backed (finish : Token) (es : List Diagnostic) (p : Progress) (cells : List Cell) :
    readFrom finish (p.backed es) cells = (readFrom finish p cells).backed es := by
  fun_induction readFrom finish p cells with
  | case1 p => rw [readFrom]
  | case2 p c cs s next ih =>
    rw [readFrom]
    simp only [Progress.take_backed, resume_backed]
    exact ih

/-- A program that keeps the limits among the literals of another one keeps them on its own. -/
theorem admitted_nil_of_addAll {ts : List Token} {q : List Grammar.Sentence} {vs : List Value}
    (h : Grammar.Sentences ts q) (hvs : Pool.Regular vs) (hq : Admitted (Pool.addAll [] vs) q) :
    Admitted [] q := by
  have hregular : Pool.Regular (vs ++ Grammar.literals q) :=
    List.forall_mem_append.mpr ⟨hvs, regular_literals h⟩
  obtain ⟨hslots, hleaps⟩ := (admitted_iff hregular).mp hq
  have hatMost := Pool.atMost_of_lacks hregular (List.subset_append_right vs _) hslots
  exact (admitted_nil_iff h).mpr ⟨hatMost, hleaps⟩

/-- A text that is read without an error further down, after other statements, has none. -/
theorem errors_ofSource_of_lower {cs : List Char} {n line : Nat} {vs : List Value}
    (hstray : ∀ t ∈ (Token.scan cs).tokens, t.kind ≠ .stray) (hquiet : p.quiet = false)
    (hpool : p.pool = Pool.addAll [] vs) (hvs : Pool.Regular vs)
    (hread : (readFrom (.atEnd line) p
      (((Token.scan cs).tokens.map (Token.lower n)).map .plain)).errors = p.errors) :
    (ofSource cs).errors = [] := by
  -- the errors before do not matter, and neither do the lines
  let q : Progress := { p with errors := [] }
  have hlower : (readFrom (.atEnd line) q
      (((Token.scan cs).tokens.map (Token.lower n)).map .plain)).errors = [] := by
    have hbacked : p = q.backed p.errors := rfl
    rw [hbacked, readFrom_backed] at hread
    simpa [Progress.backed] using hread
  have hforget : ((((Token.scan cs).tokens.map (Token.lower n)).map Cell.plain).map Cell.forget) =
      ((Token.scan cs).tokens.map Cell.plain).map Cell.forget := by
    simp only [List.map_map]
    rfl
  have hsame : (readFrom (Token.scan cs).finish q ((Token.scan cs).tokens.map .plain)).forget =
      (readFrom (.atEnd line) q
        (((Token.scan cs).tokens.map (Token.lower n)).map .plain)).forget := by
    rw [← readFrom_forget, ← readFrom_forget, hforget]
    rfl
  have herrors : (readFrom (Token.scan cs).finish q ((Token.scan cs).tokens.map .plain)).errors =
      [] := by
    have hmapped := congrArg Progress.errors hsame
    simp only [Progress.forget, hlower, List.map_nil, List.map_eq_nil_iff] at hmapped
    exact hmapped
  have hquiet' : q.quiet = false := hquiet
  obtain ⟨ts, σs, hts, hsentences, hadmitted⟩ := sentences_of_readFrom hquiet' herrors
  obtain rfl : (Token.scan cs).tokens = ts :=
    List.map_injective_iff.mpr (fun _ _ => Cell.plain_injective) hts
  have hpool' : q.pool = Pool.addAll [] vs := hpool
  rw [hpool'] at hadmitted
  rw [ofSource_of_sentences hstray hsentences (admitted_nil_of_addAll hsentences hvs hadmitted)]

/-- A text without tokens has no errors. -/
theorem errors_ofSource_of_tokens_eq_nil {cs : List Char} (h : (Token.scan cs).tokens = []) :
    (ofSource cs).errors = [] := by
  have hstray : ∀ t ∈ (Token.scan cs).tokens, t.kind ≠ .stray := by
    rw [h]
    exact List.forall_mem_nil _
  rw [ofSource, Feed.ofScanned_of_forall hstray, h]
  simp [ofFeed, readFrom, Progress.complain]

/-- An error of a text is found again, on a line of that text, when the text follows another one. -/
theorem exists_error_of_append {cs₁ cs₂ : List Char} {front : List Token} {semi : Token}
    (hstray₁ : ∀ t ∈ (Token.scan cs₁).tokens, t.kind ≠ .stray)
    (hstray₂ : ∀ t ∈ (Token.scan cs₂).tokens, t.kind ≠ .stray)
    (htokens : (Token.scan cs₁).tokens = front ++ [semi]) (hsemi : semi.kind = .semicolon)
    (hsevered : ∀ t ∈ (Token.scan cs₂).tokens.head?, Severed front t)
    (herrors : (ofSource cs₂).errors ≠ []) :
    ∃ d ∈ (ofSource (cs₁ ++ '\n' :: cs₂)).errors, 1 + cs₁.count '\n' < d.line := by
  have hscan := Token.scan_joined hstray₁ cs₂
  have hlines := (Token.scans_scan cs₂).le_line
  have hend := (Token.scans_scan cs₂).last_eq
  generalize 1 + cs₁.count '\n' = n at *
  obtain ⟨t, ts, hts⟩ := List.exists_cons_of_ne_nil (mt errors_ofSource_of_tokens_eq_nil herrors)
  -- the tokens of both texts, none of them stray
  let lowered := ((Token.scan cs₂).tokens.map (Token.lower n)).map Cell.plain
  have hfeed : Feed.ofScanned (Token.scan (cs₁ ++ '\n' :: cs₂)) =
      ⟨[], front.map .plain ++ [.plain semi] ++ lowered,
        .atEnd ((Token.scan cs₂).endLine + n)⟩ := by
    have hstray : ∀ u ∈ (Token.scan (cs₁ ++ '\n' :: cs₂)).tokens, u.kind ≠ .stray := by
      rw [hscan]
      refine List.forall_mem_append.mpr ⟨hstray₁, ?_⟩
      rintro u hu
      obtain ⟨v, hv, rfl⟩ := List.mem_map.mp hu
      exact hstray₂ v hv
    rw [Feed.ofScanned_of_forall hstray, hscan, htokens]
    simp [Token.Scanned.finish, lowered]
  -- reading comes to the second text with some progress, and only adds errors about its tokens
  obtain ⟨p, vs, hread, hquiet, hpool, hvs⟩ : ∃ p vs,
      readFrom (.atEnd ((Token.scan cs₂).endLine + n)) {}
          (front.map .plain ++ [.plain semi] ++ lowered) =
        readFrom (.atEnd ((Token.scan cs₂).endLine + n)) p lowered ∧ p.quiet = false ∧
      p.pool = Pool.addAll [] vs ∧ Pool.Regular vs := by
    have hfirst :
        Severed ((front.map Cell.plain).map Cell.token) (Cell.plain (t.lower n)).token := by
      have hfront : (front.map Cell.plain).map Cell.token = front := by simp [Function.comp_def]
      have ht := hsevered t (by rw [hts]; rfl)
      rw [hfront]
      exact ⟨⟨ht.semicolon, ht.operator, ht.paren⟩, ht.statement⟩
    have hplain : ∀ c ∈ front.map Cell.plain ++ [Cell.plain semi], c.complaint? = none := by
      rw [← List.map_singleton, ← List.map_append]
      exact List.forall_mem_map.mpr fun u _ => Cell.complaint?_plain u
    have hlowered :
        lowered = Cell.plain (t.lower n) :: (ts.map (Token.lower n)).map Cell.plain := by
      simp only [lowered, hts, List.map_cons]
    rw [hlowered]
    exact readFrom_severed _ hsemi hplain hfirst _ rfl (.inl rfl) rfl
  obtain ⟨ds, hds, hlate⟩ : ∃ ds,
      (readFrom (.atEnd ((Token.scan cs₂).endLine + n)) p lowered).errors = ds ++ p.errors ∧
        ∀ d ∈ ds, n < d.token.line := by
    have hfinish : n < (Token.atEnd ((Token.scan cs₂).endLine + n)).line := by
      simp only [Token.atEnd]
      omega
    refine errors_readFrom_from (P := fun u => n < u.line) hfinish p ?_
    intro c hc
    obtain ⟨u, hu, rfl⟩ := List.mem_map.mp hc
    obtain ⟨v, hv, rfl⟩ := List.mem_map.mp hu
    refine ⟨?_, List.forall_mem_nil _⟩
    exact Nat.lt_add_of_pos_left (hlines v hv)
  have hne : ds ≠ [] := by
    rintro rfl
    exact herrors (errors_ofSource_of_lower hstray₂ hquiet hpool hvs hds)
  obtain ⟨d, ds, rfl⟩ := List.exists_cons_of_ne_nil hne
  refine ⟨d, ?_, hlate d List.mem_cons_self⟩
  have hsource : (ofSource (cs₁ ++ '\n' :: cs₂)).errors = (d :: ds ++ p.errors).reverse := by
    rw [← hds, ← hread, ofSource, hfeed]
    rfl
  rw [hsource]
  simp

end Program

/-- An error that is found in a source is found again after other statements. The first source has
no strays and its last token is a semicolon that ends the statement before it; the second one
follows on a line of its own. If the second one does not compile, then neither do the two together,
and there is an error in the lines of the second one. -/
theorem exists_error_of_joined {s₁ s₂ : Bytes} {front : List Token} {semi : Token}
    {es : List Diagnostic}
    (hstray₁ : ∀ t ∈ (Token.scan (Utf8.decode s₁)).tokens, t.kind ≠ .stray)
    (hstray₂ : ∀ t ∈ (Token.scan (Utf8.decode s₂)).tokens, t.kind ≠ .stray)
    (htokens : (Token.scan (Utf8.decode s₁)).tokens = front ++ [semi])
    (hsemi : semi.kind = .semicolon)
    (hsevered : ∀ t ∈ (Token.scan (Utf8.decode s₂)).tokens.head?, Severed front t)
    (hfails : compile s₂ = .error es) :
    ∃ ds, compile (s₁ ++ Utf8.lineFeed :: s₂) = .error ds ∧
      ∃ d ∈ ds, 1 + (Utf8.decode s₁).count '\n' < d.line := by
  have herrors : (Program.ofSource (Utf8.decode s₂)).errors ≠ [] := by
    intro hnone
    rw [compile_eq, hnone] at hfails
    cases hfails
  obtain ⟨d, hd, hline⟩ :=
    Program.exists_error_of_append hstray₁ hstray₂ htokens hsemi hsevered herrors
  refine ⟨_, ?_, d, hd, hline⟩
  rw [compile_eq, Utf8.decode_append_lineFeed, if_neg]
  simp [List.ne_nil_of_mem hd]

/-- A source with an error of its own, which a severing semicolon ends. -/
def faulty : Bytes :=
  Utf8.ofString "1 +;\nprint 3;"

/-- A source with an operator first, in which a semicolon is left out. -/
def unended : Bytes :=
  Utf8.ofString "- 2 3;"

/-- The one error of `unended`, on its own. -/
theorem compile_unended : compile unended =
    .error [⟨.expectEndOfExpression, ⟨.number, ['3'], 1⟩⟩] := by
  have herrors : (Program.ofSource (Utf8.decode unended)).errors =
      [⟨.expectEndOfExpression, ⟨.number, ['3'], 1⟩⟩] := by decide +kernel
  rw [compile_eq, herrors]
  rfl

/-- After that source the error is found again, on the third line. -/
theorem exists_error_of_joined_faulty :
    ∃ ds, compile (faulty ++ Utf8.lineFeed :: unended) = .error ds ∧ ∃ d ∈ ds, 2 < d.line := by
  have htokens : (Token.scan (Utf8.decode faulty)).tokens =
      [⟨.number, ['1'], 1⟩, ⟨.plus, ['+'], 1⟩, ⟨.semicolon, [';'], 1⟩,
        ⟨.kwPrint, ['p', 'r', 'i', 'n', 't'], 2⟩, ⟨.number, ['3'], 2⟩] ++
        [⟨.semicolon, [';'], 2⟩] := by decide +kernel
  have hnext : (Token.scan (Utf8.decode unended)).tokens.head? = some ⟨.minus, ['-'], 1⟩ := by
    decide +kernel
  refine exists_error_of_joined (by decide +kernel) (by decide +kernel) htokens rfl ?_
    compile_unended
  rw [hnext]
  rintro t ⟨⟩
  exact ⟨⟨nofun, by decide, nofun⟩, nofun⟩

/-- A source that ends where an operand is due. -/
def gapped : Bytes :=
  Utf8.ofString "1 +;"

/-- After that source the error is lost: the semicolon is taken for the operand, and the operator on
the second line goes on with the statement. -/
theorem error_lost_after_gap :
    (∀ t ∈ (Token.scan (Utf8.decode gapped)).tokens, t.kind ≠ .stray) ∧
      (∀ t ∈ (Token.scan (Utf8.decode unended)).tokens, t.kind ≠ .stray) ∧
      (Token.scan (Utf8.decode gapped)).tokens.getLast?.map Token.kind = some .semicolon ∧
      (∃ es, compile unended = .error es) ∧
      ∃ ds, compile (gapped ++ Utf8.lineFeed :: unended) = .error ds ∧
        ∀ d ∈ ds, d.line ≤ 1 + (Utf8.decode gapped).count '\n' := by
  refine ⟨by decide +kernel, by decide +kernel, by decide +kernel, ⟨_, compile_unended⟩, ?_⟩
  have herrors : (Program.ofSource (Utf8.decode (gapped ++ Utf8.lineFeed :: unended))).errors =
      [⟨.expectExpression, ⟨.semicolon, [';'], 1⟩⟩] := by decide +kernel
  refine ⟨[⟨.expectExpression, ⟨.semicolon, [';'], 1⟩⟩], ?_, by decide +kernel⟩
  rw [compile_eq, herrors]
  rfl

end Lox
