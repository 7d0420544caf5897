import Packrat.Proofs.Halting
import Packrat.Proofs.ListLang.Prefixes

/-! # The rules of the list language come to an end

    A list within a list begins behind a bracket, and each round of the loop over
    elements begins behind a comma.  So the depth of an evaluation is bounded by the
    number of ordinary tokens ahead, and fuel in proportion to it is enough, from
    any parser and with any answers of the stream.

    Whether the rules end with a value or with an error depends on the spans that
    they find.  A body that releases marks of its caller may leave a span of an
    earlier layout behind, and the rule that finds it does not get through
    (`eval_list_of_stale`).  Where the memo names of the grammar have been used with
    quiet bodies only, the rules get through. -/

namespace Packrat.ListLang

variable {σ ν : Type} [TokenStream σ Kind] {source : σ} {sure : Prop} {n : Nat}

/-- A name that a rule of the grammar is remembered under. -/
def IsMemoName (name : String) : Prop :=
  name = Nonterminal.list.name ∨ name = Nonterminal.assignment.name

theorem quiet_of_text {e : Expr Kind Nonterminal} (h : e.isQuiet = true) : e.Quiet grammar := by
  refine Expr.quiet_of_isQuiet ?_ h
  intro rule
  cases rule <;> rfl

/-! ## Fuel for each rule -/

/-- The expression comes to an end with this much fuel, and with more. -/
def HaltsFrom (source : σ) (sure : Prop) (enough n : Nat) (e : Expr Kind Nonterminal) : Prop :=
  ∀ fuel, enough ≤ fuel → e.Halts grammar source IsMemoName sure fuel n

/-- An element halts if a list does: a list is the only alternative that goes on from there. -/
theorem halts_element (hlist : HaltsFrom source sure (10 * n + 10) n (.call .list)) :
    HaltsFrom source sure (10 * n + 12) n (.call .element) := by
  intro fuel hfuel
  obtain ⟨fuel, rfl⟩ := Nat.exists_eq_add_of_le' (show 6 ≤ fuel by omega)
  refine Expr.halts_call (Expr.halts_cond (by decide) ?_ (hlist _ (by omega)))
  refine Expr.halts_cond (by decide) ?_ (Expr.halts_expect _)
  refine Expr.halts_seq (quiet_of_text rfl) (Expr.halts_expect _) ?_
  exact Expr.halts_seq (quiet_of_text rfl) (Expr.halts_expect _) (Expr.halts_expect _)

/-- Each round of the loop leaves a comma behind, so it is the elements with fewer tokens ahead that
    matter. -/
theorem halts_moreElements
    (helement : ∀ m < n, HaltsFrom source sure (10 * m + 12) m (.call .element)) :
    HaltsFrom source sure (10 * n + 4) n moreElements := by
  have hcomma : Expr.Gains grammar source IsMemoName sure (.expect .comma) :=
    Expr.gains_expect nofun
  induction n using Nat.strongRecOn with
  | ind n ih =>
      intro fuel hfuel
      obtain ⟨fuel, rfl⟩ := Nat.exists_eq_add_of_le' (show 3 ≤ fuel by omega)
      refine Expr.halts_loop (Expr.gains_seq hcomma (quiet_of_text rfl)) ?_ ?_
      · refine Expr.halts_seq_of_gains hcomma (Expr.halts_expect _) ?_
        intro m hm
        exact helement m hm _ (by omega)
      · intro m hm
        refine ih m hm ?_ _ (by omega)
        intro m' hm'
        exact helement m' (Nat.lt_trans hm' hm)

/-- The elements of a list halt if an element does, on all that is left behind each comma. -/
theorem halts_elements
    (helement : ∀ m ≤ n, HaltsFrom source sure (10 * m + 12) m (.call .element)) :
    HaltsFrom source sure (10 * n + 14) n (.call .elements) := by
  intro fuel hfuel
  obtain ⟨fuel, rfl⟩ := Nat.exists_eq_add_of_le' (show 2 ≤ fuel by omega)
  have hmore := halts_moreElements fun m hm => helement m (Nat.le_of_lt hm)
  refine Expr.halts_call (Expr.halts_seq (quiet_of_text rfl) ?_ ?_)
  · exact helement n (Nat.le_refl n) _ (by omega)
  · exact hmore _ (by omega)

/-- What stands in a list has its opening bracket no longer ahead. -/
theorem halts_list (n : Nat) : HaltsFrom source sure (10 * n + 10) n (.call .list) := by
  induction n using Nat.strongRecOn with
  | ind n ih =>
      intro fuel hfuel
      obtain ⟨fuel, rfl⟩ := Nat.exists_eq_add_of_le' (show 6 ≤ fuel by omega)
      refine Expr.halts_call (Expr.halts_memo (Or.inl rfl) (quiet_of_text rfl) ?_)
      refine Expr.halts_seq_of_gains (Expr.gains_expect nofun) (Expr.halts_expect _) ?_
      intro m hm
      refine Expr.halts_seq (quiet_of_text rfl) ?_ (Expr.halts_expect _)
      refine Expr.halts_cond (by decide) Expr.halts_done ?_
      refine halts_elements ?_ _ (by omega)
      intro m' hm'
      exact halts_element (ih m' (Nat.lt_of_le_of_lt hm' hm))

/-- An assignment halts, as its two lists do. -/
theorem halts_assignment (n : Nat) :
    HaltsFrom source sure (10 * n + 14) n (.call .assignment) := by
  intro fuel hfuel
  obtain ⟨fuel, rfl⟩ := Nat.exists_eq_add_of_le' (show 5 ≤ fuel by omega)
  refine Expr.halts_call (Expr.halts_memo (Or.inr rfl) (quiet_of_text rfl) ?_)
  refine Expr.halts_seq (quiet_of_text rfl) (halts_list n _ (by omega)) ?_
  exact Expr.halts_seq (quiet_of_text rfl) (Expr.halts_expect _) (halts_list n _ (by omega))

/-- And so does a statement, which is a list or an assignment. -/
theorem halts_statement (n : Nat) :
    HaltsFrom source sure (10 * n + 17) n (.call .statement) := by
  intro fuel hfuel
  obtain ⟨fuel, rfl⟩ := Nat.exists_eq_add_of_le' (show 4 ≤ fuel by omega)
  refine Expr.halts_call (Expr.halts_choose ?_ ?_)
  · refine List.forall_mem_cons.mpr ⟨quiet_of_text rfl, ?_⟩
    exact List.forall_mem_singleton.mpr (quiet_of_text rfl)
  · refine List.forall_mem_cons.mpr ⟨?_, List.forall_mem_singleton.mpr ?_⟩
    · exact Expr.halts_seq (quiet_of_text rfl) (halts_list n _ (by omega)) (Expr.halts_expect _)
    · exact Expr.halts_seq (quiet_of_text rfl) (halts_assignment n _ (by omega))
        (Expr.halts_expect _)

/-- **The fuel for a text of `n` characters is enough for `n` tokens**, whatever the rule. -/
theorem halts_rule (rule : Nonterminal) {fuel : Nat} (hfuel : fuelFor n ≤ fuel) :
    Expr.Halts grammar source IsMemoName sure fuel n (.call rule) := by
  have hfuel' : 16 * (n + 2) ≤ fuel := hfuel
  cases rule with
  | statement => exact halts_statement n fuel (by omega)
  | assignment => exact halts_assignment n fuel (by omega)
  | list => exact halts_list n fuel (by omega)
  | elements => exact halts_elements (fun m _ => halts_element (halts_list m)) fuel (by omega)
  | element => exact halts_element (halts_list n) fuel (by omega)

/-! ## The rules in a program -/

variable {rules : ν → Expr Kind ν} {ref : Nonterminal → ν}

/-- **The rules terminate.**  On a stream that does not go on for ever with ordinary tokens, a
    number of tokens is ahead of every parser that can be reached, with marks set and released
    wherever the program likes.  Fuel in proportion to it is enough for every rule of the grammar,
    and the rule ends with a value or an error, unless the memo table is in use and a program has
    remembered a body with bare marks under a name of the grammar. -/
theorem rules_terminate (hrules : ∀ rule, rules (ref rule) = rule.body ref)
    (hsource : TokenStream.Stops source) {p : Parser (Metered σ) Kind}
    (hp : Reachable rules (fun _ => True) source p) :
    (∃ n, p.Ahead source n) ∧ ∀ n, p.Ahead source n → ∀ rule fuel, fuelFor n ≤ fuel →
      let r := (Expr.eval rules fuel (.call (ref rule)) p).1
      r ≠ .error .outOfFuel ∧
        (p.options.memoize = false ∨ Reachable rules (Expr.QuietUnder rules IsMemoName) source p →
          isSettled r = true) := by
  refine ⟨hp.steady.exists_ahead hsource, ?_⟩
  intro n hahead rule fuel hfuel
  have heval : Expr.eval rules fuel (.call (ref rule)) p = Expr.eval grammar fuel (.call rule) p :=
    congrFun (eval_ref hrules fuel (.call rule)) p
  rw [heval]
  constructor
  · have hhalts : Expr.Halts grammar source IsMemoName False fuel n (.call rule) :=
      halts_rule rule hfuel
    exact (hhalts p ⟨hp.steady, False.elim, hahead⟩).fuelled
  · intro hfits
    have hhalts : Expr.Halts grammar source IsMemoName True fuel n (.call rule) :=
      halts_rule rule hfuel
    refine (hhalts p ⟨hp.steady, fun _ => ?_, hahead⟩).settled trivial
    rcases hfits with hoff | hquiet
    · exact fun hon => nomatch hoff.symm.trans hon
    · exact hquiet.fits

/-- A body under a name of its own has released the mark of its caller and set another one, behind
    which a list has been remembered.  The elements go over that list, up to the bracket that closes
    the whole. -/
theorem rules_terminate_elements :
    let source := ListLexer.ofText "[[a]]=["
    let own : Expr Kind Nonterminal := .memo "own" (.seq (.release true) (.seq .mark .advance))
    let before : Expr Kind Nonterminal :=
      .seq .mark (.seq own (.seq .mark (.seq (.call .list) (.release true))))
    let p : Parser (Metered ListLexer) Kind :=
      (Expr.eval grammar 99 before (.new (.new source) {})).2
    TokenStream.Stops source ∧ Reachable grammar (Expr.QuietUnder grammar IsMemoName) source p ∧
      p.isSpeculating = true ∧ p.memo.find? "list" 1 = some ⟨1, 4⟩ ∧ p.Ahead source 6 ∧
      isSettled (Expr.eval grammar (fuelFor 6) (.call .elements) p).1 = true := by
  intro source own before p
  have hseq : ∀ {e e'}, e.QuietUnder grammar IsMemoName → e'.QuietUnder grammar IsMemoName →
      (Expr.seq e e').QuietUnder grammar IsMemoName := by
    intro e e' he he'
    refine .of_parts (fun _ _ _ h => nomatch h) ?_
    rintro _ (_ | _)
    · exact he
    · exact he'
  have hmark : Expr.mark.QuietUnder grammar IsMemoName := .of_parts (fun _ _ _ h => nomatch h) nofun
  have hrelease : (Expr.release true).QuietUnder grammar IsMemoName :=
    .of_parts (fun _ _ _ h => nomatch h) nofun
  have hquiet : ∀ {e : Expr Kind Nonterminal}, e.isQuiet = true →
      e.QuietUnder grammar IsMemoName := fun h => (quiet_of_text h).quietUnder _
  have hown : ∀ {body}, body.QuietUnder grammar IsMemoName →
      (Expr.memo "own" body).QuietUnder grammar IsMemoName := by
    intro body hbody
    refine .of_parts ?_ (by rintro _ ⟨⟩; exact hbody)
    rintro _ _ (hname | hname) ⟨⟩
    · exact absurd hname (by decide)
    · exact absurd hname (by decide)
  have hp : Reachable grammar (Expr.QuietUnder grammar IsMemoName) source p :=
    .after 99 (.new {})
      (hseq hmark (hseq (hown (hseq hrelease (hseq hmark (hquiet rfl))))
        (hseq hmark (hseq (hquiet rfl) hrelease))))
      (by decide +kernel)
  have hlast : TokenStream.answer source 7 =
      .ok ⟨.eof, ⟨⟨0, "[[a]]=[".toList⟩, 7, 7⟩, ⟨1, 8, 7⟩⟩ := by decide +kernel
  have hahead : p.Ahead source 6 := by
    refine ⟨7, ?_, fun _ => ⟨_, hlast⟩, by decide +kernel⟩
    intro t ht
    rw [← Except.ok.inj (hlast.symm.trans ht)]
    rfl
  have hstops : TokenStream.Stops source := TokenStream.stops_of_eof hlast rfl
  obtain ⟨-, hrule⟩ := rules_terminate (fun _ => rfl) hstops hp.anyhow
  exact ⟨hstops, hp, by decide +kernel, by decide +kernel, hahead,
    (hrule 6 hahead .elements (fuelFor 6) (Nat.le_refl _)).2 (Or.inr hp)⟩

/-- Where a list finds a span of another layout, that is the end of the evaluation. -/
theorem eval_list_of_stale {p : Parser σ Kind} {span : Span} (hon : p.options.memoize = true)
    (hfind : p.memo.find? Nonterminal.list.name p.absolute = some span)
    (hstale : span.start ≠ p.window.cursor) (fuel : Nat) :
    (Expr.eval grammar (fuel + 2) (.call .list) p).1 = .error (.fault .staleSpan) := by
  have hjump : Parser.jump span (p.asked Nonterminal.list.name) =
      (.error (.fault .staleSpan), p.asked Nonterminal.list.name) := Parser.jump_of_stale hstale
  exact congrArg Prod.fst (Run.bind_of_error ((Parser.memoize_of_found hon hfind).trans hjump))

/-- A body under the name of a list goes back to the mark of its caller, lets the first bracket go
    and passes over the second one.  It is remembered with the index at which it began, although the
    window has been cut off in between, and the list that begins at the second bracket is never
    parsed. -/
theorem list_finds_stale_span :
    let source := ListLexer.ofText "[[]"
    let body : Expr Kind Nonterminal := .sequence [.release true, .advance, .mark, .advance]
    let before : Expr Kind Nonterminal :=
      .sequence [.mark, .advance, .memo Nonterminal.list.name body, .release true]
    let p : Parser (Metered ListLexer) Kind :=
      (Expr.eval grammar 9 before (.new (.new source) {})).2
    TokenStream.Stops source ∧ Reachable grammar (fun _ => True) source p ∧
      ∀ fuel, (Expr.eval grammar (fuel + 2) (.call .list) p).1 = .error (.fault .staleSpan) := by
  intro source body before p
  have hlast : TokenStream.answer source 3 =
      .ok ⟨.eof, ⟨⟨0, "[[]".toList⟩, 3, 3⟩, ⟨1, 4, 3⟩⟩ := by decide +kernel
  have hfind : p.memo.find? Nonterminal.list.name p.absolute = some ⟨1, 1⟩ := by decide +kernel
  have hon : p.options.memoize = true := by decide +kernel
  have hcursor : p.window.cursor = 0 := by decide +kernel
  refine ⟨TokenStream.stops_of_eof hlast rfl, .after 9 (.new {}) trivial (by decide +kernel), ?_⟩
  intro fuel
  exact eval_list_of_stale hon hfind (by rw [hcursor]; decide) fuel

end Packrat.ListLang
