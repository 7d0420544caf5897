import Packrat.Proofs.ListLang.Passes

/-! # How much work a statement is

    A statement is passed over up to three times, twice to find out which
    alternative matches and once to take it.  The first pass is over fresh ground.
    Lists that it has met are known after that, so the passes that follow jump over
    them. -/

namespace Packrat.ListLang

variable {σ : Type} [TokenStream σ Kind] {i : Input σ Kind}

/-! ## Over known ground -/

/-- A run to `b` with a number of questions to the memo table, answered or not, if there is one. -/
structure Spends (i : Input σ Kind) (p : Parser σ Kind) (s b hits misses s' c : Nat)
    (memo : Memo) : Prop where
  cursor : c = b
  grows : s ≤ s'
  held : b ≤ s'
  size_le : s' ≤ i.script.length + 1
  hits : memo.hits = p.memo.hits + p.options.memoize.toNat * hits
  misses : memo.misses = p.memo.misses + p.options.memoize.toNat * misses

section Again

variable {a b c x y : Nat} {p : Parser σ Kind} {s : Nat}

theorem Arrives.spends {s' : Nat} {memo : Memo} (h : Arrives i p s a b x s' c memo) :
    Spends i p s b 0 x s' c memo :=
  ⟨h.cursor, h.grows, h.held, h.size_le, h.noted.hits, h.noted.misses⟩

/-- A rule that is known to lead from `a` to `b` is not run again, if a memo table is kept. -/
theorem gets_again {rule : Nonterminal} {name : String} {body : Expr Kind Nonterminal}
    (hrule : grammar rule = .memo name body) (fuel : Nat) (hb : b ≤ s)
    (hs : s ≤ i.script.length + 1)
    (hknown : p.options.memoize = true → p.memo.find? name a = some ⟨a, b⟩)
    (hbody : p.options.memoize = false → ∀ fuel,
      i.Gets (Expr.eval grammar fuel body) p s a (Spends i p s b x y)) :
    i.Gets (Expr.eval grammar fuel (.call rule)) p s a fun s' c memo =>
      Spends i p s b 1 0 s' c memo ∧ (p.options.memoize = true → memo.rules = p.memo.rules) := by
  refine gets_of_memoize hrule (fun fuel => ?_) fuel
  cases hon : p.options.memoize with
  | false =>
      refine .memoize_off hon ((hbody hon fuel).discard.mono ?_)
      intro s' c memo hspends
      refine ⟨{ hspends with hits := ?_, misses := ?_ }, nofun⟩
      · rw [hspends.hits, hon, Bool.toNat_false, Nat.zero_mul, Nat.zero_mul]
      · rw [hspends.misses, hon, Bool.toNat_false, Nat.zero_mul, Nat.zero_mul]
  | true =>
      refine ends_of_ok (Input.memoize_seat_hit hon (hknown hon) hb hs)
        ⟨⟨(), rfl⟩, s, b, _, rfl, ⟨rfl, Nat.le_refl _, hb, hs, ?_, ?_⟩, fun _ => rfl⟩
      · rw [hon]
        rfl
      · rw [hon]
        rfl

/-- A list that is known already costs one hit, and enters none. -/
theorem list_again (h : Runs i listBody a b x) (fuel : Nat) (hb : b ≤ s)
    (hs : s ≤ i.script.length + 1) (hkept : p.isSpeculating = true ∨ b < s)
    (hknown : p.options.memoize = true → p.memo.find? "list" a = some ⟨a, b⟩) :
    i.Gets (Expr.eval grammar fuel (.call .list)) p s a fun s' c memo =>
      Spends i p s b 1 0 s' c memo ∧ (p.options.memoize = true → memo.rules = p.memo.rules) := by
  refine gets_again (x := 0) (y := x) rfl fuel hb hs hknown fun hoff fuel => ?_
  refine ((h.2 fuel).gets p s (Nat.le_trans h.1 hb) hs hkept ?_).mono fun _ _ _ harrives =>
    harrives.spends
  rw [hoff]
  exact nofun

/-- The body of an assignment whose left side is known. -/
theorem gets_assignmentBody (hl : Runs i listBody a b x) (heq : i.script.kindAt? b = some .equals)
    (hr : Runs i listBody (b + 1) c y) (hlt : b + 1 < c) (fuel : Nat) (hb : b ≤ s)
    (hs : s ≤ i.script.length + 1) (hkept : p.isSpeculating = true ∨ c < s)
    (hknown : p.options.memoize = true → p.memo.find? "list" a = some ⟨a, b⟩)
    (hfresh : p.options.memoize = true → Fresh p.memo b c) :
    i.Gets (Expr.eval grammar fuel assignmentBody) p s a (Spends i p s c 1 (y + 1)) := by
  have hright : Runs i (.seq (.expect .equals) (.call .list)) b c (0 + (y + 1)) :=
    Runs.seq (Runs.expect heq nofun) (runs_list hlt hr)
  cases fuel with
  | zero => exact .outOfFuel
  | succ fuel =>
      refine (list_again hl fuel hb hs (hkept.imp_right (by omega)) hknown).discard.bind ?_
      rintro _ s' d memo ⟨⟨hd, hss, hb', hs', hhits, hmisses⟩, hrules⟩
      rw [hd]
      -- reading the left side again has added nothing to the table
      have hfresh' : p.options.memoize = true → Fresh memo b c := by
        intro hon position hle hlt'
        rw [Memo.find?, Memo.entriesOf, hrules hon]
        exact hfresh hon position hle hlt'
      refine ((hright.2 fuel).gets { p with memo } s' hb' hs' (hkept.imp_right (by omega))
        hfresh').discard.bind ?_
      rintro _ s'' _ memo' ⟨rfl, hss', hc, hs'', hnoted⟩
      refine .of_eq rfl ⟨rfl, Nat.le_trans hss hss', hc, hs'', ?_, ?_⟩
      · exact hnoted.hits.trans hhits
      · rw [hnoted.misses, hmisses, Nat.zero_add]
        rfl

/-- An assignment that is not known yet, but its left side is. -/
theorem first_assignment (hl : Runs i listBody a b x) (heq : i.script.kindAt? b = some .equals)
    (hr : Runs i listBody (b + 1) c y) (hlt : b + 1 < c) (fuel : Nat) (hb : b ≤ s)
    (hs : s ≤ i.script.length + 1) (hkept : p.isSpeculating = true ∨ c < s)
    (hknown : p.options.memoize = true → p.memo.find? "list" a = some ⟨a, b⟩)
    (hfresh : p.options.memoize = true → Fresh p.memo b c)
    (hnew : p.options.memoize = true → p.memo.find? "assignment" a = none) :
    i.Gets (Expr.eval grammar fuel (.call .assignment)) p s a fun s' d memo =>
      Spends i p s c 1 (y + 2) s' d memo ∧
        (p.options.memoize = true → memo.find? "assignment" a = some ⟨a, c⟩) := by
  refine gets_of_memoize rfl (fun fuel => ?_) fuel
  cases hon : p.options.memoize with
  | false =>
      have hbody := gets_assignmentBody hl heq hr hlt fuel hb hs hkept hknown hfresh
      refine .memoize_off hon (hbody.discard.mono ?_)
      intro s' d memo hspends
      refine ⟨{ hspends with misses := ?_ }, nofun⟩
      rw [hspends.misses, hon, Bool.toNat_false, Nat.zero_mul, Nat.zero_mul]
  | true =>
      have hbody := gets_assignmentBody
        (p := { p with memo := { p.memo with misses := p.memo.misses + 1 } })
        hl heq hr hlt fuel hb hs hkept hknown hfresh
      refine (Input.Gets.memoize_miss hon (hnew hon) hbody.discard ?_).mono ?_
      · intro s' d memo hspends
        rw [hspends.cursor]
        have hab := hl.1
        omega
      · rintro s' d _ ⟨memo, rfl, hspends⟩
        refine ⟨{ hspends with hits := hspends.hits, misses := hspends.misses.trans ?_ }, ?_⟩
        · rw [show Parser.options _ = p.options from rfl, hon, Bool.toNat_true]
          show p.memo.misses + 1 + _ = _
          omega
        · intro _
          rw [Memo.find?_store_self, hspends.cursor]

/-- The same for an assignment that is known already. -/
theorem assignment_again (hl : Runs i listBody a b x) (heq : i.script.kindAt? b = some .equals)
    (hr : Runs i listBody (b + 1) c y) (hlt : b + 1 < c) (fuel : Nat) (hc : c ≤ s)
    (hs : s ≤ i.script.length + 1) (hkept : p.isSpeculating = true ∨ c < s)
    (hknown : p.options.memoize = true → p.memo.find? "assignment" a = some ⟨a, c⟩) :
    i.Gets (Expr.eval grammar fuel (.call .assignment)) p s a fun s' d memo =>
      Spends i p s c 1 0 s' d memo ∧ (p.options.memoize = true → memo.rules = p.memo.rules) := by
  refine gets_again (x := 1) (y := y + 1) rfl fuel hc hs hknown fun hoff fuel => ?_
  refine gets_assignmentBody hl heq hr hlt fuel (by omega) hs hkept ?_ ?_
  · rw [hoff]
    exact nofun
  · rw [hoff]
    exact nofun

end Again

/-! ## Statements -/

section Statements

variable {e : Expr Kind Nonterminal} {p : Parser σ Kind} {s hits misses : Nat}

/-- The end of the input is the last token that is let in. -/
theorem kindAt?_length (i : Input σ Kind) : i.script.kindAt? i.script.length = some .eof := by
  rw [Script.kindAt?_of_ending i.ending (Nat.le_refl _),
    show i.script.length = i.script.kinds.length from (List.length_map _).symm,
    List.getElem?_concat_length]
  rfl

/-- An alternative is tried through to the end of the input. -/
theorem gets_alternative {P : Memo → Prop} (hs : s ≤ i.script.length + 1)
    (hspec : p.isSpeculating = true)
    (h : ∀ fuel, i.Gets (Expr.eval grammar fuel e) p s 0 fun s' c memo =>
      Spends i p s i.script.length hits misses s' c memo ∧ P memo) (fuel : Nat) :
    i.Gets (Expr.eval grammar fuel (.seq e (.expect .eof))) p s 0 fun s' c memo =>
      s' = i.script.length + 1 ∧
        Spends i p s (i.script.length + 1) hits misses s' c memo ∧ P memo := by
  match fuel with
  | 0 => exact .outOfFuel
  | fuel + 1 =>
      refine (h fuel).discard.bind ?_
      rintro _ s' d memo ⟨⟨rfl, hss, hheld, hs', hhits, hmisses⟩, hP⟩
      match fuel with
      | 0 => exact .outOfFuel
      | fuel + 1 =>
          have hlast := Input.expect_seat (p := { p with memo }) hs' (Nat.le_refl _)
            (kindAt?_length i) (Or.inl hspec)
          refine .of_step (Run.discard_of_ok (Run.bind_of_ok hlast)) (.of_eq rfl ?_)
          exact ⟨by omega, ⟨rfl, by omega, by omega, by omega, hhits, hmisses⟩, hP⟩

/-- Taken for good, the alternative lets everything go at the end of the input. -/
theorem ends_alternative {P : Memo → Prop} (hfree : p.isSpeculating = false)
    (h : ∀ fuel, i.Gets (Expr.eval grammar fuel e) p (i.script.length + 1) 0 fun s' c memo =>
      Spends i p (i.script.length + 1) i.script.length hits misses s' c memo ∧ P memo)
    (fuel : Nat) :
    Ends (Expr.eval grammar fuel (.seq e (.expect .eof))) (i.seat p (i.script.length + 1) 0)
      fun r q => (∃ v, r = .ok v) ∧ ∃ memo,
        q = (i.seat { p with memo } (i.script.length + 1) (i.script.length + 1)).truncate ∧
          memo.hits = p.memo.hits + p.options.memoize.toNat * hits ∧
          memo.misses = p.memo.misses + p.options.memoize.toNat * misses := by
  match fuel with
  | 0 => exact ends_of_outOfFuel rfl
  | fuel + 1 =>
      refine Ends.bind (h fuel).discard ?_
      rintro _ _ ⟨⟨v, rfl⟩, s', d, memo, rfl, ⟨rfl, hss, -, hs', hhits, hmisses⟩, -⟩
      refine ⟨v, rfl, ?_⟩
      match fuel with
      | 0 => exact ends_of_outOfFuel rfl
      | fuel + 1 =>
          have hlast := Input.expect_seat_last (p := { p with memo }) hs' (by omega)
            (kindAt?_length i) hfree
          refine .of_step (Run.discard_of_ok (Run.bind_of_ok hlast)) (ends_of_ok rfl ?_)
          refine ⟨⟨_, rfl⟩, memo, ?_, hhits, hmisses⟩
          rw [show s' = i.script.length + 1 by omega]

/-- An alternative that gets to `b` finds no end of the input there. -/
theorem misses_alternative {P : Memo → Prop} {b : Nat} {k : Kind} (hb : b ≤ i.script.length)
    (hk : i.script.kindAt? b = some k) (hne : k ≠ .eof)
    (h : ∀ fuel, i.Gets (Expr.eval grammar fuel e) p s 0 fun s' c memo =>
      Spends i p s b hits misses s' c memo ∧ P memo) (fuel : Nat) :
    i.Misses (Expr.eval grammar fuel (.seq e (.expect .eof))) p s 0 fun s' c memo =>
      Spends i p s b hits misses s' c memo ∧ P memo := by
  match fuel with
  | 0 => exact ends_of_outOfFuel rfl
  | fuel + 1 =>
      refine (h fuel).discard.bind_misses ?_
      rintro _ s' d memo ⟨⟨rfl, hss, hheld, hs', hhits, hmisses⟩, hP⟩
      match fuel with
      | 0 => exact ends_of_outOfFuel rfl
      | fuel + 1 =>
          obtain ⟨seen, hlast⟩ := Input.expect_seat_mismatch (p := { p with memo }) hs' hb hk hne
          refine ends_of_failed
            (Run.bind_of_error (Run.discard_of_error (Run.bind_of_error hlast))) ?_
          refine ⟨⟨_, _, rfl⟩, _, _, memo, rfl, ⟨rfl, ?_, ?_, ?_, hhits, hmisses⟩, hP⟩
          · omega
          · omega
          · omega

end Statements

theorem eval_statement_eq (fuel : Nat) : Expr.eval grammar (fuel + 2) (.call .statement) =
    (Parser.chooseFrom "statement" none
        [discard (Expr.eval grammar fuel (.seq (.call .list) (.expect .eof))),
          discard (Expr.eval grammar fuel (.seq (.call .assignment) (.expect .eof)))] >>=
      fun _ => pure .nothing : Parsing σ Kind (Value Kind)) := rfl

/-- The parser has let everything go at the end of the input, and asked its memo table, if it has
    one, a number of questions. -/
def Finishes (i : Input σ Kind) (options : Options) (hits misses : Nat)
    (q : Parser σ Kind) : Prop :=
  ∃ memo : Memo, memo.hits = options.memoize.toNat * hits ∧
    memo.misses = options.memoize.toNat * misses ∧
    q = (i.seat { Parser.new i.stream options with memo } (i.script.length + 1)
      (i.script.length + 1)).truncate

theorem seat_new (i : Input σ Kind) (options : Options) :
    i.seat (Parser.new i.stream options) 0 0 = Parser.new i.stream options := by
  rw [Input.seat, Input.window, Input.filling, if_neg (Nat.not_lt_zero _)]
  rfl

theorem spells_kinds (i : Input σ Kind) : Spells i.script.kindAt? 0 i.script.kinds := by
  have hlen : i.script.kinds.length = i.script.length := List.length_map _
  refine spells_of_lt fun j hj => ?_
  rw [Nat.zero_add, Script.kindAt?_of_ending i.ending (by omega), List.getElem?_append_left hj]

/-- A statement that is a list is tried once and taken, as a list that is known by then. -/
theorem ends_choice_of_list (i : Input σ Kind) (options : Options)
    (h : Derives .list i.script.kinds) (fuel : Nat) (rest : List (Parsing σ Kind Unit)) :
    Ends (Parser.chooseFrom "statement" none
        (discard (Expr.eval grammar fuel (.seq (.call .list) (.expect .eof))) :: rest))
      (i.seat (Parser.new i.stream options) 0 0) fun r q =>
        (∃ v, r = .ok v) ∧ Finishes i options 1 (i.script.kinds.count .lbrack) q := by
  obtain ⟨x, hcount, hbody⟩ := h.passes (spells_kinds i) trivial
  have hlen : 0 + i.script.kinds.length = i.script.length :=
    (Nat.zero_add _).trans (List.length_map _)
  have hlt : 0 < i.script.length := by
    have hpos := h.length_pos
    omega
  rw [hlen] at hbody
  rw [hcount]
  -- first the trial, behind a mark and with nothing known yet
  have htry := fun fuel => (first_list hlt hbody fuel (Nat.le_refl 0) (Nat.zero_le _)
    (p := { Parser.new i.stream options with marks := Marks.empty.push 0 }) (Or.inl rfl)
    (fun _ _ _ _ => rfl)).mono fun _ _ _ hboth => And.imp_left Arrives.spends hboth
  have hspeculate := (gets_alternative (Nat.zero_le _) rfl htry fuel).discard.speculate
    (p := Parser.new i.stream options) ?_
  · refine Ends.bind hspeculate ?_
    rintro _ _ ⟨rfl, _, c', memo, rfl, rfl, hspends, hknown⟩
    refine ⟨none, rfl, ?_⟩
    -- then the alternative for good, which finds the list in the table
    have htake := ends_alternative (p := { Parser.new i.stream options with memo }) rfl
      (fun fuel => list_again hbody fuel (Nat.le_succ _) (Nat.le_refl _)
        (Or.inr (Nat.lt_succ_self _)) hknown) fuel
    refine htake.discard ?_
    rintro _ q ⟨⟨v, rfl⟩, memo', rfl, hhits, hmisses⟩
    refine ⟨⟨_, rfl⟩, memo', ?_, ?_, rfl⟩
    · have hbefore : memo.hits = 0 + options.memoize.toNat * 0 := hspends.hits
      have hafter : memo'.hits = memo.hits + options.memoize.toNat * 1 := hhits
      omega
    · have hbefore : memo.misses = 0 + options.memoize.toNat * (x + 1) := hspends.misses
      have hafter : memo'.misses = memo.misses + options.memoize.toNat * 0 := hmisses
      omega
  · rintro s' c' memo ⟨rfl, -⟩
    exact ⟨Nat.zero_le _, Nat.le_refl _⟩

section Assignments

variable {b x y : Nat}

/-- The memo table knows a list up to `b` and nothing about what is behind it. -/
structure KnowsLeft (i : Input σ Kind) (b : Nat) (memo : Memo) : Prop where
  left : memo.find? "list" 0 = some ⟨0, b⟩
  fresh : Fresh memo b i.script.length
  assignment : memo.find? "assignment" 0 = none

/-- The first try of an assignment gets over its left side. -/
theorem gets_left (options : Options) (hlt : 0 < b) (hl : Runs i listBody 0 b x) (fuel : Nat) :
    let p := { Parser.new i.stream options with marks := Marks.empty.push 0 }
    i.Gets (Expr.eval grammar fuel (.call .list)) p 0 0 fun s' c memo =>
      Spends i p 0 b 0 (x + 1) s' c memo ∧ (options.memoize = true → KnowsLeft i b memo) := by
  intro p
  refine (first_list hlt hl fuel (p := p) (Nat.le_refl 0) (Nat.zero_le _) (Or.inl rfl)
    (fun _ _ _ _ => rfl)).mono ?_
  rintro s' c memo ⟨harrives, hknown⟩
  refine ⟨harrives.spends, fun hon => ⟨hknown hon, ?_, ?_⟩⟩
  · exact harrives.noted.fresh fun _ _ _ => rfl
  · exact harrives.noted.kept "assignment" 0 fun hname => absurd hname (by decide)

/-- A statement that is an assignment is tried as a list in vain, but then its left side is known.
    It is known itself after the second try, and so it is taken. -/
theorem ends_choice_of_sides (options : Options) (hlt : 0 < b) (hl : Runs i listBody 0 b x)
    (heq : i.script.kindAt? b = some .equals) (hr : Runs i listBody (b + 1) i.script.length y)
    (hlt' : b + 1 < i.script.length) (fuel : Nat) :
    Ends (Parser.chooseFrom "statement" none
        [discard (Expr.eval grammar fuel (.seq (.call .list) (.expect .eof))),
          discard (Expr.eval grammar fuel (.seq (.call .assignment) (.expect .eof)))])
      (i.seat (Parser.new i.stream options) 0 0) fun r q =>
        (∃ v, r = .ok v) ∧ Finishes i options 2 (x + 1 + (y + 1) + 1) q := by
  -- a list alone is refused at the mark of equality, and its left side is known from then on
  have hfirst := (misses_alternative (by omega) heq nofun (gets_left options hlt hl)
    fuel).discard.speculate (p := Parser.new i.stream options) fun _ _ _ h =>
      ⟨Nat.zero_le _, h.1.size_le⟩
  refine Ends.bind hfirst ?_
  rintro _ _ ⟨⟨e, rfl⟩, s₁, _, memo₁, rfl, hspends₁, hknows⟩
  refine ⟨some e, rfl, ?_⟩
  -- so the trial of the assignment finds that side, and runs over the other one
  have hsecond := (gets_alternative hspends₁.size_le rfl (fun fuel => first_assignment
      (p := { Parser.new i.stream options with marks := Marks.empty.push 0, memo := memo₁ })
      hl heq hr hlt' fuel hspends₁.held hspends₁.size_le (Or.inl rfl)
      (fun hon => (hknows hon).left) (fun hon => (hknows hon).fresh)
      fun hon => (hknows hon).assignment) fuel).discard.speculate
    (p := { Parser.new i.stream options with memo := memo₁ }) fun _ _ _ h =>
      ⟨Nat.zero_le _, h.2.1.size_le⟩
  refine Ends.bind hsecond ?_
  rintro _ _ ⟨rfl, _, _, memo₂, rfl, rfl, hspends₂, hknown⟩
  refine ⟨none, rfl, ?_⟩
  have htake := ends_alternative (p := { Parser.new i.stream options with memo := memo₂ }) rfl
    (fun fuel => assignment_again hl heq hr hlt' fuel (Nat.le_succ _) (Nat.le_refl _)
      (Or.inr (Nat.lt_succ_self _)) hknown) fuel
  refine htake.discard ?_
  rintro _ q ⟨⟨v, rfl⟩, memo₃, rfl, hhits₃, hmisses₃⟩
  refine ⟨⟨_, rfl⟩, memo₃, ?_, ?_, rfl⟩
  · have hhits₁ : memo₁.hits = 0 + options.memoize.toNat * 0 := hspends₁.hits
    have hhits₂ : memo₂.hits = memo₁.hits + options.memoize.toNat * 1 := hspends₂.hits
    have hhits₃ : memo₃.hits = memo₂.hits + options.memoize.toNat * 1 := hhits₃
    omega
  · have hmisses₁ : memo₁.misses = 0 + options.memoize.toNat * (x + 1) := hspends₁.misses
    have hmisses₂ : memo₂.misses = memo₁.misses + options.memoize.toNat * (y + 2) :=
      hspends₂.misses
    have hmisses₃ : memo₃.misses = memo₂.misses + options.memoize.toNat * 0 := hmisses₃
    rw [hmisses₃, hmisses₂, hmisses₁, Nat.mul_zero, Nat.add_zero, Nat.zero_add, ← Nat.mul_add]
    congr 1

end Assignments

/-- The two sides of an assignment. -/
theorem ends_choice_of_assignment (i : Input σ Kind) (options : Options)
    (h : Derives .assignment i.script.kinds) (fuel : Nat) :
    Ends (Parser.chooseFrom "statement" none
        [discard (Expr.eval grammar fuel (.seq (.call .list) (.expect .eof))),
          discard (Expr.eval grammar fuel (.seq (.call .assignment) (.expect .eof)))])
      (i.seat (Parser.new i.stream options) 0 0) fun r q =>
        (∃ v, r = .ok v) ∧ Finishes i options 2 (i.script.kinds.count .lbrack + 1) q := by
  have hspell := spells_kinds i
  have hlen : i.script.kinds.length = i.script.length := List.length_map _
  generalize i.script.kinds = w at h hspell hlen ⊢
  cases h with
  | @assignment u v hu hv =>
      obtain ⟨hleft, heq, hright⟩ := spells_append.mp hspell
      obtain ⟨x, hcountu, hl⟩ := hu.passes hleft trivial
      obtain ⟨y, hcountv, hr⟩ := hv.passes hright trivial
      have hpos := hu.length_pos
      have hpos' := hv.length_pos
      have hend : 0 + u.length + 1 + v.length = i.script.length := by
        rw [← hlen, List.length_append, List.length_cons]
        omega
      rw [hend] at hr
      rw [List.count_append, List.count_cons_of_ne (by decide), hcountu, hcountv]
      exact ends_choice_of_sides options (by omega) hl heq hr (by omega) fuel

/-- From the beginning, with nothing held and nothing known, a statement ends as its choice does. -/
theorem ends_statement (i : Input σ Kind) (options : Options) {hits misses : Nat}
    (h : ∀ fuel, Ends (Parser.chooseFrom "statement" none
        [discard (Expr.eval grammar fuel (.seq (.call .list) (.expect .eof))),
          discard (Expr.eval grammar fuel (.seq (.call .assignment) (.expect .eof)))])
      (i.seat (Parser.new i.stream options) 0 0) fun r q =>
        (∃ v, r = .ok v) ∧ Finishes i options hits misses q) (fuel : Nat) :
    Ends (Expr.eval grammar fuel (.call .statement)) (Parser.new i.stream options) fun r q =>
      (∃ v, r = .ok v) ∧ Finishes i options hits misses q := by
  match fuel with
  | 0 => exact ends_of_outOfFuel rfl
  | 1 => exact ends_of_outOfFuel rfl
  | fuel + 2 =>
      rw [eval_statement_eq, ← seat_new]
      refine Ends.bind (h fuel) ?_
      rintro _ q ⟨⟨v, rfl⟩, hfinishes⟩
      exact ⟨v, rfl, ends_of_ok rfl ⟨⟨_, rfl⟩, hfinishes⟩⟩

/-- Then the counters are known, and nothing is remembered of what has been let go. -/
theorem Finishes.stats_eq {options : Options} {hits misses : Nat} {q : Parser σ Kind}
    (h : Finishes i options hits misses q) (hsound : q.Sound) :
    q.stats = ⟨i.script.length + 1, options.memoize.toNat * hits, options.memoize.toNat * misses, 0,
      1, i.script.length + 1, i.script.length + 1⟩ := by
  obtain ⟨memo, hhits, hmisses, rfl⟩ := h
  generalize hq : (i.seat { Parser.new i.stream options with memo } (i.script.length + 1)
    (i.script.length + 1)).truncate = q at hsound
  have hretired : q.window.retired = i.script.length + 1 := by
    rw [← hq]
    exact Nat.zero_add _
  have hsize : q.window.size = 0 := by
    rw [← hq]
    refine (Window.size_truncate _).trans ?_
    show (i.window (i.script.length + 1) (i.script.length + 1)).size - (i.script.length + 1) = 0
    rw [Input.window, Input.size_filling (Nat.le_refl _), Nat.sub_self]
  have hentries : q.memo.size = 0 := by
    refine beq_iff_eq.mp (Memo.isEmpty_of_not_holds fun rule position span hspan => ?_)
    obtain ⟨hposition, hle, hstop⟩ := hsound.spans rule position span hspan
    have hthreshold : i.script.length + 1 + 1 ≤ position := by
      rw [← hretired]
      rw [← hq] at hspan ⊢
      exact (Memo.holds_dropBefore hspan).2
    omega
  rw [Parser.stats, hretired, hentries, ← hq, ← hhits, ← hmisses]
  rfl

/-- **The exact work of an accepted statement.**  Every token is let in once, the end of the input
    included; the window lets all of them go together, behind the last one; and nothing stays in the
    memo table.  If a memo table is kept, every list is run over once, as many as there are opening
    brackets.  A list that is a statement is asked for once more, when it is taken.  For an
    assignment the left side is asked for a second time, and the assignment itself twice. -/
theorem recognize_work {script : Script Kind} {stream : σ} (hs : script.SpokenBy stream)
    {last : Token Kind} (hending : script.ending = .ok last) {fuel : Nat}
    (hfuel : fuelFor script.length ≤ fuel) (options : Options)
    (hu : Derives .statement script.kinds) :
    ∃ stats, (recognize fuel options stream).1 = .ok stats ∧
      stats.tokensPulled = script.length + 1 ∧ stats.retired = script.length + 1 ∧
      stats.peakBuffered = script.length + 1 ∧ stats.truncations = 1 ∧ stats.memoEntries = 0 ∧
      (options.memoize = true →
        (Derives .list script.kinds →
          stats.memoHits = 1 ∧ stats.memoMisses = script.kinds.count .lbrack) ∧
        (Derives .assignment script.kinds →
          stats.memoHits = 2 ∧ stats.memoMisses = script.kinds.count .lbrack + 1)) ∧
      (options.memoize = false → stats.memoHits = 0 ∧ stats.memoMisses = 0) := by
  let i : Input σ Kind := ⟨script, stream, last, hs, hending⟩
  obtain ⟨r, t, q, hjudged, -, hparse, -⟩ := parse_judged hs hfuel options
  have hr : r ≠ .error .outOfFuel := by
    intro heq
    have hsettled := hjudged.isSettled
    rw [heq] at hsettled
    exact nomatch hsettled
  have hsound : q.Sound := by
    have hkeeps := (eval_orderly governs_grammar fuel (@lawful_call .statement false) _
      (Parser.sound_new stream options)).sound
    rwa [hparse] at hkeeps
  -- either way of deriving the statement determines the outcome of the one run
  have houtcome : ∀ {hits misses}, (∀ fuel, Ends (Expr.eval grammar fuel (.call .statement))
      (Parser.new stream options) fun r q => (∃ v, r = .ok v) ∧ Finishes i options hits misses q) →
      (∃ v, r = .ok v) ∧ Finishes i options hits misses q := by
    intro hits misses h
    rcases (h fuel).outcome hparse hr with ⟨v, rfl, -, hfinishes⟩ | ⟨e, rfl, ⟨v, hok⟩, -⟩
    · exact ⟨⟨v, rfl⟩, hfinishes⟩
    · exact nomatch hok
  have hlist := fun h => houtcome (ends_statement i options fun fuel =>
    ends_choice_of_list i options h fuel _)
  have hassignment := fun h => houtcome (ends_statement i options
    (ends_choice_of_assignment i options h))
  obtain ⟨hits, misses, ⟨v, rfl⟩, hfinishes⟩ : ∃ hits misses, (∃ v, r = .ok v) ∧
      Finishes i options hits misses q := by
    cases hu with
    | ofList h => exact ⟨_, _, hlist h⟩
    | ofAssignment h => exact ⟨_, _, hassignment h⟩
  have hstats := hfinishes.stats_eq hsound
  refine ⟨q.stats, ?_, ?_, ?_, ?_, ?_, ?_, ?_, ?_⟩
  · rw [recognize_of_ok hparse]
  · rw [hstats]
  · rw [hstats]
  · rw [hstats]
  · rw [hstats]
  · rw [hstats]
  · intro hon
    refine ⟨fun h => ?_, fun h => ?_⟩
    · rw [(hlist h).2.stats_eq hsound, hon]
      exact ⟨Nat.one_mul _, Nat.one_mul _⟩
    · rw [(hassignment h).2.stats_eq hsound, hon]
      exact ⟨Nat.one_mul _, Nat.one_mul _⟩
  · intro hoff
    rw [hstats, hoff]
    exact ⟨Nat.zero_mul _, Nat.zero_mul _⟩

/-- An assignment of six tokens, two of which open a list. -/
theorem recognize_work_assignment :
    let text := "[a]=[]"
    let cut (kind : Kind) (start stop : Nat) : Token Kind :=
      ⟨kind, ⟨⟨0, text.toList⟩, start, stop⟩, ⟨1, start + 1, start⟩⟩
    ∃ script : Script Kind,
      script.tokens = [cut .lbrack 0 1, cut .ident 1 2, cut .rbrack 2 3, cut .equals 3 4,
        cut .lbrack 4 5, cut .rbrack 5 6] ∧
      script.SpokenBy (ListLexer.ofText text) ∧ Derives .assignment script.kinds ∧
      ∃ stats, (recognize (fuelFor 6) ⟨true, 16⟩ (ListLexer.ofText text)).1 = .ok stats ∧
        stats.tokensPulled = 7 ∧ stats.truncations = 1 ∧ stats.memoHits = 2 ∧
        stats.memoMisses = 3 := by
  intro text cut
  let script : Script Kind :=
    { tokens := [cut .lbrack 0 1, cut .ident 1 2, cut .rbrack 2 3, cut .equals 3 4,
        cut .lbrack 4 5, cut .rbrack 5 6]
      ending := .ok (cut .eof 6 6)
      ordinary := by decide
      final := fun k hk => Except.ok.inj hk ▸ rfl }
  have hs : script.SpokenBy (ListLexer.ofText text) := by decide +kernel
  have hkinds : Derives .assignment script.kinds :=
    .assignment (.list (.last .ident)) .emptyList
  obtain ⟨stats, hstats, hpulled, -, -, htruncations, -, hon, -⟩ :=
    recognize_work hs rfl (Nat.le_refl (fuelFor 6)) ⟨true, 16⟩ (.ofAssignment hkinds)
  obtain ⟨hhits, hmisses⟩ := (hon rfl).2 hkinds
  exact ⟨script, rfl, hs, hkinds, stats, hstats, hpulled, htruncations, hhits, hmisses⟩

end Packrat.ListLang
