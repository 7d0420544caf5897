import Packrat.Proofs.ListLang.Recognition
import Packrat.Proofs.Renaming
import Packrat.Proofs.Tame

/-! # Lists and assignments take their prefix

    A list and an assignment end by themselves: no word of theirs is the beginning
    of another one.  So there is at most one word that the input goes on with, and
    the rules take that word or complain about a token, wherever they are called.

    They may be called in the middle of a program that is not disciplined at all.
    As long as their memo names belong to them, what the memo table holds under
    these names was put there by the rules, and every parser that can be reached is
    in step with a tape of the input as far as the rules can tell.  What other
    programs remember, and where they set and release marks, makes no difference. -/

namespace Packrat.ListLang

variable {σ ν : Type} [TokenStream σ Kind]

/-! ## One prefix at most -/

/-- Of two sequences that are spelled from one place on, the shorter one is the beginning of the
    longer one. -/
theorem Spells.isPrefix {f : Nat → Option Kind} {a : Nat} {u v : List Kind} (hu : Spells f a u)
    (hv : Spells f a v) (hle : u.length ≤ v.length) : u <+: v := by
  refine List.prefix_iff_getElem?.mpr fun i hi => ?_
  rw [← hv.getElem? (Nat.lt_of_lt_of_le hi hle), hu.getElem? hi, List.getElem?_eq_getElem hi]

variable {script : Script Kind} {stream : σ} {last : Token Kind} {rule : Nonterminal}

/-- The tokens a tape holds are those the script begins with. -/
theorem kindAt?_over {t : Tape σ Kind} (ht : t.Over script stream) {i : Nat}
    (hi : i < t.tokens.length) : t.kindAt? i = script.kindAt? i := by
  have hheld := List.getElem?_eq_getElem hi
  rw [Tape.kindAt?, hheld, Script.kindAt?_of_answer (ht.answers i _ hheld)]
  rfl

/-- The tape can be read on, as far as one likes. -/
theorem exists_longer (hs : script.SpokenBy stream) (hending : script.ending = .ok last)
    {t : Tape σ Kind} (ht : t.Over script stream) (n : Nat) :
    ∃ t' : Tape σ Kind, t'.Over script stream ∧ t.tokens <+: t'.tokens ∧
      n ≤ t'.tokens.length := by
  obtain ⟨t', hpull, hfilled⟩ := Tape.pullMany_over hs (n - t.tokens.length) ht
    fun i _ => Script.exists_answer hending i
  refine ⟨t', hfilled.isOver, ?_, ?_⟩
  · rcases Tape.pullMany_spec (n - t.tokens.length) t with ⟨u, hu, hgrows, -⟩ | ⟨e, u, hu, -⟩
    · obtain rfl : u = t' := congrArg Prod.snd (hu.symm.trans hpull)
      exact hgrows.tokens
    · exact nomatch congrArg Prod.fst (hu.symm.trans hpull)
  · rw [hfilled.length]
    omega

/-- A derivable sequence that the input goes on with is known on a tape that holds it. -/
theorem Derives.known {t : Tape σ Kind} (ht : t.Over script stream)
    (hrule : rule = .list ∨ rule = .assignment) {u : List Kind} (hu : Derives rule u) {a : Nat}
    (hspell : Spells script.kindAt? a u) (hle : a + u.length ≤ t.tokens.length) :
    t.Known grammar (.call rule) a (a + u.length) := by
  have hheld : Spells t.kindAt? a u := by
    refine spells_of_lt fun i hi => ?_
    rw [kindAt?_over ht (by omega)]
    exact hspell.getElem? hi
  rcases hrule with rfl | rfl
  · exact hu.reaches hheld trivial
  · exact (hu.reaches hheld trivial).1

/-- **The input goes on with one list at most**, and with one assignment at most. -/
theorem Derives.unique (hs : script.SpokenBy stream) (hending : script.ending = .ok last)
    (hrule : rule = .list ∨ rule = .assignment) {u v : List Kind} (hu : Derives rule u)
    (hv : Derives rule v) {a : Nat} (hspell : Spells script.kindAt? a u)
    (hspell' : Spells script.kindAt? a v) : u = v := by
  obtain ⟨t, ht, -, hle⟩ := exists_longer hs hending (Tape.over_new script stream)
    (a + (u.length + v.length))
  have hsame := (hu.known ht hrule hspell (by omega)).unique
    (hv.known ht hrule hspell' (by omega))
  exact (hspell.isPrefix hspell' (by omega)).eq_of_length (by omega)

/-! ## The rules on a tape -/

/-- As much fuel as either rule takes. -/
def depthFor (script : Script Kind) : Nat := 10 * script.length + 14

/-- The two rules that can be asked for by name read their languages from any place on. -/
theorem recognizes_rule (hs : script.SpokenBy stream) (hrule : rule = .list ∨ rule = .assignment)
    (a : Nat) : Recognizes script stream (Tape.eval grammar (depthFor script) (.call rule))
      (Derives rule) 0 a := by
  rcases hrule with rfl | rfl
  · exact (listsFrom hs script.length a (by omega)).more_fuel (by rw [depthFor]; omega)
  · exact recognizes_assignment hs (Nat.le_refl _)

/-- How a rule ends on a tape: it takes the word that the input goes on with, or there is none and
    it complains about a token. -/
inductive Settles (script : Script Kind) (stream : σ) (rule : Nonterminal) (a : Nat) :
    Except (Halt (ParseError Kind)) (Value Kind) × Tape σ Kind → Prop where
  | took {v u t'} : Derives rule u → Spells script.kindAt? a u → t'.Over script stream →
      t'.position = a + u.length → Settles script stream rule a (.ok v, t')
  | refused {k seen t'} : (∀ u, Derives rule u → ¬ Spells script.kindAt? a u) →
      t'.Over script stream →
      Settles script stream rule a (.error (.failed (.mismatch k seen)), t')

/-- **How the rules end on a tape.**  A rule that complains has seen that there is no word: on a
    tape with the word on it the complaint would be had again, but the rule gets through. -/
theorem rule_settles (hs : script.SpokenBy stream) (hending : script.ending = .ok last)
    (hrule : rule = .list ∨ rule = .assignment) {t : Tape σ Kind} (ht : t.Over script stream) :
    Settles script stream rule t.position (Tape.eval grammar (depthFor script) (.call rule) t) := by
  have ho := recognizes_rule hs hrule t.position t ht rfl
  have hagain := (eval_replayable governs_grammar (depthFor script) (lawful_call rule) t).again
  rcases hr : Tape.eval grammar (depthFor script) (.call rule) t with ⟨r, t'⟩
  rw [hr] at ho hagain
  cases ho with
  | accepted hu hspell _ hfilled => exact .took hu hspell hfilled.isOver hfilled.position
  | starved _ _ _ he => exact nomatch hending.symm.trans he
  | rejected _ _ _ _ hfilled =>
      refine .refused (fun u hu hspell => ?_) hfilled.isOver
      obtain ⟨t'', ht'', hpre, hle⟩ :=
        exists_longer hs hending hfilled.isOver (t.position + u.length)
      obtain ⟨n, v, hn⟩ := (hu.known ht'' hrule hspell hle).with_fuel
      have hthrough := hn _ (Nat.le_max_right (depthFor script) n) (t''.goto t.position)
        List.prefix_rfl rfl
      have hrefused := (Tape.eval_rising (σ := σ) grammar (.call rule)).eq_of_le
        (hagain rfl (t''.goto t.position) hpre rfl) rfl (Nat.le_max_left (depthFor script) n)
      exact nomatch congrArg Prod.fst (hrefused.symm.trans hthrough)

theorem Settles.isSettled {a : Nat}
    {o : Except (Halt (ParseError Kind)) (Value Kind) × Tape σ Kind}
    (h : Settles script stream rule a o) : Packrat.isSettled o.1 = true := by
  cases h with
  | took => rfl
  | refused => rfl

theorem Settles.isOver {a : Nat} {o : Except (Halt (ParseError Kind)) (Value Kind) × Tape σ Kind}
    (h : Settles script stream rule a o) : o.2.Over script stream := by
  cases h with
  | took _ _ hover _ => exact hover
  | refused _ hover => exact hover

/-- A run of a rule that comes to an end, with whatever fuel, leaves a tape of the input. -/
theorem rule_over (hs : script.SpokenBy stream) (hending : script.ending = .ok last)
    (hrule : rule = .list ∨ rule = .assignment) {t t' : Tape σ Kind} (ht : t.Over script stream)
    {n : Nat} {r : Except (Halt (ParseError Kind)) (Value Kind)}
    (h : Tape.eval grammar n (.call rule) t = (r, t')) (hr : isSettled r = true) :
    t'.Over script stream := by
  have hsettles := rule_settles hs hending hrule ht
  rcases heq : Tape.eval grammar (depthFor script) (.call rule) t with ⟨r', u⟩
  rw [heq] at hsettles
  have hrising := Tape.eval_rising (σ := σ) grammar (.call rule)
  have hmax := hrising.eq_of_le h hr (Nat.le_max_left n (depthFor script))
  have hmax' := hrising.eq_of_le heq hsettles.isSettled (Nat.le_max_right n (depthFor script))
  obtain rfl : t' = u := congrArg Prod.snd (hmax.symm.trans hmax')
  exact hsettles.isOver

/-! ## The rules in a program -/

/-- The memo names of the grammar are used for its rules only. -/
def Reserves (rules : ν → Expr Kind ν) (ref : Nonterminal → ν) (e : Expr Kind ν) : Prop :=
  ∀ rule name body, Nonterminal.body ref rule = .memo name body →
    ∀ body', e.Contains rules (.memo name body') → body' = body

variable {rules : ν → Expr Kind ν} {ref : Nonterminal → ν}

/-- What an expression reserves, its parts reserve. -/
theorem Reserves.part {e e' : Expr Kind ν} (h : Reserves rules ref e)
    (hpart : Expr.Part rules e e') : Reserves rules ref e' :=
  fun rule name body hbody body' hc => h rule name body hbody body' (hc.head hpart)

/-- An expression reserves what it does not break itself as soon as its parts reserve it. -/
theorem Reserves.of_parts {e : Expr Kind ν}
    (hself : ∀ rule name body, Nonterminal.body ref rule = .memo name body →
      ∀ body', e = .memo name body' → body' = body)
    (hparts : ∀ e', Expr.Part rules e e' → Reserves rules ref e') : Reserves rules ref e := by
  intro rule name body hbody body' hc
  rcases hc.cases_head with heq | ⟨e', hpart, hc'⟩
  · exact hself rule name body hbody body' heq
  · exact hparts e' hpart rule name body hbody body' hc'

theorem body_eq_rename (ref : Nonterminal → ν) (rule : Nonterminal) :
    rule.body ref = (grammar rule).rename ref := by
  cases rule <;> rfl

/-- Under the other names the expressions of the grammar do what they do under their own. -/
theorem eval_ref (hrules : ∀ rule, rules (ref rule) = rule.body ref) (fuel : Nat)
    (e : Expr Kind Nonterminal) :
    (Expr.eval rules fuel (e.rename ref) : Parsing σ Kind (Value Kind)) =
      Expr.eval grammar fuel e :=
  Expr.eval_rename (fun rule => (hrules rule).trans (body_eq_rename ref rule)) fuel e

/-- The rules keep to their names themselves. -/
theorem reserves_rule (hrules : ∀ rule, rules (ref rule) = rule.body ref) (rule : Nonterminal) :
    Reserves rules ref (.call (ref rule)) := by
  intro rule' name body hbody body' hc
  obtain ⟨e, he, hc'⟩ := Expr.contains_of_rename (e := .call rule)
    (fun r => (hrules r).trans (body_eq_rename ref r)) hc
  obtain ⟨b, rfl, rfl⟩ := Expr.eq_memo_of_rename he.symm
  rw [body_eq_rename] at hbody
  obtain ⟨b', hb', rfl⟩ := Expr.eq_memo_of_rename hbody
  have hmemo := (@lawful_call rule false).memo_of_contains governs_grammar hc'
  rw [functional_grammar name b b' hmemo ⟨rule', hb'⟩]

theorem tame_call (rule : Nonterminal) :
    (Expr.call rule).Tame grammar discipline.bodies :=
  (lawful_call rule).tame governs_grammar functional_grammar

theorem tamed_grammar : tamed grammar discipline.bodies = grammar := by
  funext rule
  exact if_pos ((tame_call rule).part .call)

/-- Being over the script does not depend on where the tape stands. -/
theorem unplaced_over : Tape.Unplaced (Tape.Over script stream : Tape σ Kind → Prop) :=
  fun _ _ _ h => ⟨h.answers, h.pulled, h.stream, h.eof⟩

/-- A parser in step with a tape of the input, as far as the rules of the grammar can tell. -/
abbrev Attends (script : Script Kind) (source : σ) : Parser (Metered σ) Kind → Prop :=
  LedOn (Tape.Over script (Metered.new source)) grammar discipline.bodies source

variable {source : σ}

/-- A rule of the grammar that is remembered is followed on a tape of the input. -/
theorem carries_memoize_rule (hs : script.SpokenBy source) (hending : script.ending = .ok last)
    {name : String} {body : Expr Kind Nonterminal} (hrule : grammar rule = .memo name body)
    (fuel : Nat) :
    Carries (Attends script source) (fun _ _ _ => True)
      (Parser.memoize name (discard (Expr.eval grammar fuel body))) := by
  have hmemo : discipline.memo name body := ⟨rule, hrule⟩
  have htame : (Expr.memo name body).Tame grammar discipline.bodies :=
    hrule ▸ (tame_call rule).part .call
  have hwhich : rule = .list ∨ rule = .assignment := by
    cases rule with
    | list => exact Or.inl rfl
    | assignment => exact Or.inr rfl
    | _ => exact nomatch hrule
  refine carries_memoize_tame fuel (Discipline.bodies_eq functional_grammar hmemo).symm
    (htame.part .memo) fun k t ht hset => ?_
  rw [tamed_grammar] at hset ⊢
  rcases hr : Tape.eval grammar k body t with ⟨r, t'⟩
  rw [hr] at hset
  -- two more units of fuel lead from the call to its body
  have hcall : Tape.eval grammar (k + 2) (.call rule) t = (r.map fun _ => .nothing, t') := by
    rw [Tape.eval, hrule, Tape.eval]
    cases r with
    | ok v => exact Run.bind_of_ok (Run.discard_of_ok hr)
    | error e => exact Run.bind_of_error (Run.discard_of_error hr)
  exact rule_over hs.metered hending hwhich ht hcall ((isSettled_map _ _).trans hset)

theorem compositional_attends (hrules : ∀ rule, rules (ref rule) = rule.body ref)
    (hs : script.SpokenBy source) (hending : script.ending = .ok last) :
    Compositional rules (Reserves rules ref)
      (fun m => Carries (Attends script source) (fun _ _ _ => True) m) := by
  refine compositional_ledOn unplaced_over Reserves.part ?_ ?_ ?_
  -- the source has no error in it, so that looks and steps lead over it
  · intro depth t ht _
    obtain ⟨k, hk⟩ := Script.exists_answer hending (t.position + depth)
    obtain ⟨t', hpeek, hfilled⟩ := Tape.peek_over hs.metered ht depth hk
    rw [hpeek]
    exact hfilled.isOver
  · intro t ht _
    obtain ⟨t', hpull, hfilled⟩ := Tape.pullMany_over hs.metered (t.position + 1 - t.tokens.length)
      ht fun i _ => Script.exists_answer hending i
    rw [show Tape.advance t = _ from Run.bind_of_ok hpull]
    exact hfilled.isOver.goto _
  · intro name body fuel hreserves htame
    -- the only bodies that are tame under a memo name are those of the grammar
    obtain ⟨body', rule, hrule⟩ := Discipline.exists_memo htame
    have hbody : rule.body ref = .memo name (body'.rename ref) := by
      rw [body_eq_rename, hrule, Expr.rename]
    rw [hreserves rule name _ hbody body .refl, eval_ref hrules]
    exact carries_memoize_rule hs hending hrule fuel

/-- **Every parser that can be reached is in step with a tape of the input.** -/
theorem attends_of_reachable (hrules : ∀ rule, rules (ref rule) = rule.body ref)
    (hs : script.SpokenBy source) (hending : script.ending = .ok last)
    {p : Parser (Metered σ) Kind} (hp : Reachable rules (Reserves rules ref) source p) :
    Attends script source p :=
  hp.invariant (compositional_attends hrules hs hending) (persists_ledOn unplaced_over)
    fun options => ⟨steady_new source options, _, Tape.over_new script _, _, .refl _,
      mirrors_new _ options⟩

/-- No rule looks so far ahead that an index leaves the 64-bit range. -/
theorem near_grammar (fuel : Nat) (rule : Nonterminal) (p : Parser σ Kind) (hp : p.Sound) :
    (Expr.eval grammar fuel (.call rule) p).1 ≠ .error (.fault .lookaheadOverflow) := by
  intro hover
  have hkeeps := eval_orderly governs_grammar fuel (@lawful_call rule false) p hp
  exact not_deep_grammar (hkeeps.harmless _ hover).2

/-- **A list and an assignment take the one prefix of the input that they derive.**  In any program
    that leaves their memo names to them, and from any parser that can be reached in it, speculating
    or not, with the memo table or without it: the rule ends with a value exactly if the input goes
    on with a word of its language; there is one such word at most, and the parser moves behind it;
    and if there is none, the rule ends with a mismatch. -/
theorem rule_takes_prefix (hrules : ∀ rule, rules (ref rule) = rule.body ref)
    (hs : script.SpokenBy source) (hending : script.ending = .ok last)
    {p : Parser (Metered σ) Kind} (hp : Reachable rules (Reserves rules ref) source p)
    (hrule : rule = .list ∨ rule = .assignment) {fuel : Nat}
    (hfuel : fuelFor script.length ≤ fuel) :
    let o := Expr.eval rules fuel (.call (ref rule)) p
    ((∃ v, o.1 = .ok v) ↔ ∃ u, Derives rule u ∧ Spells script.kindAt? p.absolute u) ∧
      (∀ u, Derives rule u → Spells script.kindAt? p.absolute u →
        (∀ u', Derives rule u' → Spells script.kindAt? p.absolute u' → u' = u) ∧
          o.2.absolute = p.absolute + u.length) ∧
      ((¬ ∃ u, Derives rule u ∧ Spells script.kindAt? p.absolute u) →
        ∃ k seen, o.1 = .error (.failed (.mismatch k seen))) := by
  -- the parser goes with a tape, and on the tape the grammar is read from this place
  obtain ⟨-, t, ht, htrails⟩ := attends_of_reachable hrules hs hending hp
  have hsettles := rule_settles hs.metered hending hrule ht
  rcases hr : Tape.eval grammar (depthFor script) (.call rule) t with ⟨r, t'⟩
  rw [hr, ← htrails.absolute] at hsettles
  have hle : depthFor script ≤ fuel := by
    have hfuel' : 16 * (script.length + 2) ≤ fuel := hfuel
    rw [depthFor]
    omega
  have htape := (Tape.eval_rising grammar (.call rule)).eq_of_le hr hsettles.isSettled hle
  rw [← tamed_grammar] at htape
  obtain ⟨q, hq, htrails'⟩ := htrails.eval_of_tape (tame_call rule)
    (near_grammar fuel rule) htape hsettles.isSettled
  rw [show Expr.eval rules fuel (.call (ref rule)) p = (r, q) from
    (congrFun (eval_ref hrules fuel (.call rule)) p).trans hq]
  cases hsettles with
  | @took v u _ hu hspell _ hposition =>
      refine ⟨⟨fun _ => ⟨u, hu, hspell⟩, fun _ => ⟨v, rfl⟩⟩, ?_, fun hnone => ?_⟩
      · intro w hw hspell'
        have hunique : ∀ {u'}, Derives rule u' → Spells script.kindAt? p.absolute u' → u' = w :=
          fun hu' h => hu'.unique hs.metered hending hrule hw h hspell'
        refine ⟨fun _ => hunique, ?_⟩
        rw [← hunique hu hspell]
        exact htrails'.absolute.trans hposition
      · exact absurd ⟨u, hu, hspell⟩ hnone
  | @refused k seen _ hnone _ =>
      refine ⟨⟨fun ⟨v, hv⟩ => (nomatch hv), fun ⟨u, hu, hspell⟩ => absurd hspell (hnone u hu)⟩,
        fun u hu hspell => absurd hspell (hnone u hu), fun _ => ⟨k, seen, rfl⟩⟩

/-- A program with a memo name of its own, for two bodies, one of which leaves a mark behind.  It
    has been over the list and back; now the assignment is parsed as lookahead, over the list that
    is remembered, and stops before the bracket that closes nothing. -/
theorem rule_takes_prefix_assignment :
    let rules : Option Nonterminal → Expr Kind (Option Nonterminal) := fun name =>
      match name with
      | some rule => rule.body some
      | none => .memo "own" (.seq .mark .advance)
    let source := ListLexer.ofText "[a]=[]]"
    let before : Expr Kind (Option Nonterminal) :=
      .seq (.memo "own" .mark) (.seq (.call none) (.seq (.call (some .list)) (.release true)))
    let p : Parser (Metered ListLexer) Kind :=
      (Expr.eval rules 99 (.seq .mark before) (.new (.new source) {})).2
    let o := Expr.eval rules (fuelFor 7) (.call (some .assignment)) p
    p.isSpeculating = true ∧ p.memo.find? "list" 0 = some ⟨0, 3⟩ ∧
      (∃ v, o.1 = .ok v) ∧ o.2.absolute = 6 := by
  intro rules source before p o
  have hrules : ∀ rule, rules (some rule) = rule.body some := fun _ => rfl
  have hmark : Reserves rules some .mark := .of_parts (fun _ _ _ _ _ h => nomatch h) nofun
  have hadvance : Reserves rules some .advance := .of_parts (fun _ _ _ _ _ h => nomatch h) nofun
  have hrelease : Reserves rules some (.release true) :=
    .of_parts (fun _ _ _ _ _ h => nomatch h) nofun
  have hseq : ∀ {e e'}, Reserves rules some e → Reserves rules some e' →
      Reserves rules some (.seq e e') := by
    intro e e' he he'
    refine .of_parts (fun _ _ _ _ _ h => nomatch h) ?_
    rintro _ (_ | _)
    · exact he
    · exact he'
  have hown : ∀ {body}, Reserves rules some body → Reserves rules some (.memo "own" body) := by
    intro body hbody
    refine .of_parts ?_ (by rintro _ ⟨⟩; exact hbody)
    rintro rule name _ hrule _ ⟨⟩
    cases rule <;> simp [Nonterminal.body, Nonterminal.name] at hrule
  have hcall : Reserves rules some (.call none) :=
    .of_parts (fun _ _ _ _ _ h => nomatch h) (by rintro _ ⟨⟩; exact hown (hseq hmark hadvance))
  have hbefore : Reserves rules some (.seq .mark before) :=
    hseq hmark (hseq (hown hmark) (hseq hcall (hseq (reserves_rule hrules .list) hrelease)))
  let cut (kind : Kind) (start stop : Nat) : Token Kind :=
    ⟨kind, ⟨⟨0, "[a]=[]]".toList⟩, start, stop⟩, ⟨1, start + 1, start⟩⟩
  let script : Script Kind :=
    { tokens := [cut .lbrack 0 1, cut .ident 1 2, cut .rbrack 2 3, cut .equals 3 4,
        cut .lbrack 4 5, cut .rbrack 5 6, cut .rbrack 6 7]
      ending := .ok (cut .eof 7 7)
      ordinary := by decide
      final := fun k hk => Except.ok.inj hk ▸ rfl }
  have hs : script.SpokenBy source := by decide +kernel
  have hp : Reachable rules (Reserves rules some) source p :=
    .after 99 (.new {}) hbefore (by decide +kernel)
  have hplace : p.absolute = 0 := by decide +kernel
  have hword : Derives .assignment [.lbrack, .ident, .rbrack, .equals, .lbrack, .rbrack] :=
    .assignment (.list (.last .ident)) .emptyList
  have hspell : Spells script.kindAt? p.absolute
      [.lbrack, .ident, .rbrack, .equals, .lbrack, .rbrack] := by
    rw [hplace]
    exact ⟨rfl, rfl, rfl, rfl, rfl, rfl, trivial⟩
  obtain ⟨hiff, htakes, -⟩ :=
    rule_takes_prefix hrules hs rfl hp (Or.inr rfl) (Nat.le_refl (fuelFor 7))
  refine ⟨by decide +kernel, by decide +kernel, hiff.mpr ⟨_, hword, hspell⟩, ?_⟩
  rw [(htakes _ hword hspell).2, hplace]
  rfl

end Packrat.ListLang
