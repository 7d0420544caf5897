import Packrat.ListLang.Recognizer
import Packrat.Proofs.ListLang.Outcome
import Packrat.Proofs.Simulation

/-! # What the recognizer accepts and how it complains

    A statement is chosen between two alternatives that both start with a list, so
    its error is the one of the alternative that got further.  `Judgement` says how
    a statement ends on a tape, and the parser follows the tape.

    That nothing can be a sentence that starts with what was read, the token
    complained about included, is shown by replaying the run: on a tape that holds
    such a sentence the rule would have to fail in the same way, but by completeness
    it does not. -/

namespace Packrat.ListLang

variable {σ : Type} [TokenStream σ Kind]

/-! ## Statements on a tape -/

/-- The script goes along with `w` and then has `token`, where a token of the kind `k` would fit. -/
structure Blames (script : Script Kind) (w : List Kind) (k : Kind) (token : Token Kind) :
    Prop where
  fits : Viable (w ++ [k])
  spells : Spells script.kindAt? 0 w
  answer : script.answer w.length = .ok token

/-- The script breaks off, and what it said can be completed to a sentence. -/
def BreaksOff (script : Script Kind) (e : LexError) : Prop :=
  ∃ w, Viable w ∧ Spells script.kindAt? 0 w ∧ script.length ≤ w.length ∧ script.ending = .error e

/-- How an alternative of a statement ends when it is tried on `t`. -/
inductive Trial (script : Script Kind) (stream : σ) (m : Reading σ Kind Unit) (t : Tape σ Kind) :
    Except (Halt (ParseError Kind)) (Option (ParseError Kind)) × Tape σ Kind → Prop where
  | matched {u t'} : Derives .statement u → Spells script.kindAt? 0 (u ++ [.eof]) →
      t'.marks = t.marks → m t' = (.ok (), t'.goto (u.length + 1)) →
      Trial script stream m t (.ok none, t')
  | missed {w k token t'} : Blames script w k token →
      Tape.Filled script stream t t.position (w.length + 1) t' →
      Trial script stream m t (.ok (some (.mismatch k (.ofToken w.length token))), t')
  | broken {e t'} : BreaksOff script e →
      Trial script stream m t (.error (.failed (.lexical e)), t')

variable {script : Script Kind} {stream : σ}

theorem trial_of_recognizes {m : Reading σ Kind Unit} {t : Tape σ Kind}
    (hm : Recognizes script stream m Sentence 0 0) (hreplay : Tape.Replayable m)
    (ht : t.Over script stream) (hpos : t.position = 0) :
    Trial script stream m t (Tape.speculate m t) := by
  have hmarked : t.marked.Over script stream := ⟨ht.answers, ht.pulled, ht.stream, ht.eof⟩
  have hmpos : t.marked.position = 0 := hpos
  have ho := hm t.marked hmarked hmpos
  have hagain := hreplay t.marked
  rcases hr : m t.marked with ⟨r, t'⟩
  rw [hr] at ho hagain
  have hmarks := hagain.marks ho.isSettled
  have hover : t'.Over script stream → (t.rewound t').Over script stream :=
    fun h => ⟨h.answers, h.pulled, h.stream, h.eof⟩
  cases ho with
  | @accepted _ _ l _ hu hspell hl hfilled =>
      obtain ⟨u, hu, rfl⟩ := hu
      rw [hmpos] at hspell hfilled
      rw [Tape.speculate_of_ok hmarks hr]
      refine .matched hu hspell rfl ?_
      -- the match is had again on the tape that the speculation leaves
      have hsame := hagain.again rfl (t.rewound t') List.prefix_rfl rfl
      rw [show t'.position = u.length + 1 by rw [hfilled.position]; simp] at hsame
      exact hsame
  | @rejected w k z token _ hw hspell htoken _ hfilled =>
      rw [hmpos, Nat.zero_add] at htoken hfilled
      rw [hmpos] at hspell
      rw [Tape.speculate_of_failed hmarks hr, hmpos, Nat.zero_add]
      refine .missed ⟨⟨z, ?_⟩, hspell, htoken⟩ ⟨hover hfilled.isOver, rfl, rfl, hfilled.length⟩
      rw [List.append_assoc]
      exact hw
  | @starved w z e _ hw hspell hle he =>
      rw [hmpos] at hspell
      rw [hmpos, Nat.zero_add] at hle
      rw [Tape.speculate_of_failed hmarks hr]
      exact .broken ⟨w, ⟨z, hw⟩, hspell, hle, he⟩

/-- What the grammar promises: no rule sets marks, every memo name stands for one rule, and no rule
    looks further than one token ahead. -/
def discipline : Discipline Kind Nonterminal :=
  ⟨fun _ => True, fun name e => ∃ rule, grammar rule = .memo name e, fun depth => depth ≤ 1⟩

theorem lawful_call (rule : Nonterminal) {bare : Bool} : Lawful discipline bare (.call rule) :=
  .call fun _ => trivial

/-- The grammar keeps to its discipline: every expression in it is one the discipline allows. -/
theorem governs_grammar : discipline.Governs grammar := by
  intro bare rule _
  cases rule with
  | statement =>
      refine .choose ?_
      simp only [List.forall_mem_cons]
      exact ⟨.seq (lawful_call .list) .expect, .seq (lawful_call .assignment) .expect,
        fun _ h => nomatch h⟩
  | assignment =>
      refine .memo ⟨.assignment, rfl⟩ ?_
      exact .seq (lawful_call .list) (.seq .expect (lawful_call .list))
  | list =>
      refine .memo ⟨.list, rfl⟩ (.seq .expect (.seq ?_ .expect))
      exact .cond (Nat.zero_le 1) .done (lawful_call .elements)
  | elements =>
      exact .seq (lawful_call .element) (.loop (.seq .expect (lawful_call .element)))
  | element =>
      refine .cond (Nat.zero_le 1) (.cond (Nat.le_refl 1) ?_ .expect) (lawful_call .list)
      exact .seq .expect (.seq .expect .expect)

/-- Each memo name goes with one body. -/
theorem functional_grammar : discipline.Functional := by
  rintro name e e' ⟨rule, hrule⟩ ⟨rule', hrule'⟩
  -- a memo carries the name of its rule, and no two rules share a name
  have hname : ∀ r (body : Expr Kind Nonterminal), grammar r = .memo name body → r.name = name := by
    intro r body h
    cases r with
    | assignment => exact (Expr.memo.inj h).1
    | list => exact (Expr.memo.inj h).1
    | _ => exact nomatch h
  have hsame : rule = rule' := by
    have hnames := (hname rule e hrule).trans (hname rule' e' hrule').symm
    have hfound := congrArg Nonterminal.ofName? hnames
    rw [Nonterminal.ofName?_name, Nonterminal.ofName?_name] at hfound
    exact Option.some.inj hfound
  rw [← hsame, hrule] at hrule'
  exact (Expr.memo.inj hrule').2

/-- The grammar never looks deep. -/
theorem not_deep_grammar : ¬ discipline.Deep := by
  rintro ⟨depth, hle, hlarge⟩
  have hle' : depth ≤ 1 := hle
  have hlarge' : 0x10000000000000000 ≤ 2 * depth := hlarge
  omega

/-- How a statement ends on a tape that is read from the beginning. -/
inductive Judgement (script : Script Kind) (stream : σ) :
    Except (Halt (ParseError Kind)) (Value Kind) × Tape σ Kind → Prop where
  | accepted {v u t'} : Derives .statement u → Spells script.kindAt? 0 (u ++ [.eof]) →
      t'.position = u.length + 1 → t'.marks = [] → Judgement script stream (.ok v, t')
  | rejected {w k first token t'} : Blames script w k token → script.answer 0 = .ok first →
      t'.Over script stream → t'.tokens.length = w.length + 1 →
      Judgement script stream (.error (.failed (.exhausted "statement" (.ofToken 0 first)
        (some (.mismatch k (.ofToken w.length token))))), t')
  | starved {e t'} : BreaksOff script e →
      Judgement script stream (.error (.failed (.lexical e)), t')

theorem Judgement.isSettled {o : Except (Halt (ParseError Kind)) (Value Kind) × Tape σ Kind}
    (h : Judgement script stream o) : Packrat.isSettled o.1 = true := by
  cases h with
  | accepted => rfl
  | rejected => rfl
  | starved => rfl

/-- The further one of two complaints. -/
theorem further_mismatch {w w' : List Kind} {k k' : Kind} {token token' : Token Kind}
    (h : Blames script w k token) (h' : Blames script w' k' token') :
    ∃ w₀ k₀ token₀, Blames script w₀ k₀ token₀ ∧ w₀.length = max w.length w'.length ∧
      ParseError.further (some (.mismatch k (.ofToken w.length token)))
        (.mismatch k' (.ofToken w'.length token'))
        = .mismatch k₀ (.ofToken w₀.length token₀) := by
  by_cases hlt : w.length < w'.length
  · refine ⟨w', k', token', h', by omega, ?_⟩
    rw [ParseError.further]
    exact if_pos hlt
  · refine ⟨w, k, token, h, by omega, ?_⟩
    rw [ParseError.further]
    exact if_neg hlt

/-- Both alternatives are sentences. -/
theorem recognizes_alternatives (hs : script.SpokenBy stream) {r : Nat} (hr : script.length ≤ r) :
    Recognizes script stream
      (Tape.eval grammar (10 * r + 15) (.seq (.call .list) (.expect .eof))) Sentence 0 0 ∧
    Recognizes script stream
      (Tape.eval grammar (10 * r + 15) (.seq (.call .assignment) (.expect .eof))) Sentence 0 0 := by
  have hlist : Recognizes script stream (Tape.eval grammar (10 * r + 10) (.call .list))
      (Derives .list) 0 0 := listsFrom hs r 0 (by omega)
  have hends : ∀ b, Recognizes script stream (Tape.eval grammar (10 * r + 14) (.expect .eof))
      (· = [.eof]) 0 b := fun b => recognizes_expect hs _ _
  refine ⟨(recognizes_seq (hlist.more_fuel (by omega)) (fun u _ _ => hends _) (Nat.zero_le _)
      (fun _ _ => Nat.zero_le _) ⟨_, rfl⟩).mono ?_ (Nat.le_refl _),
    (recognizes_seq (recognizes_assignment hs hr) (fun u _ _ => hends _) (Nat.zero_le _)
      (fun _ _ => Nat.zero_le _) ⟨_, rfl⟩).mono ?_ (Nat.le_refl _)⟩
  · rintro _ ⟨u, _, hu, rfl, rfl⟩
    exact ⟨u, .ofList hu, rfl⟩
  · rintro _ ⟨u, _, hu, rfl, rfl⟩
    exact ⟨u, .ofAssignment hu, rfl⟩

/-- A choice between two alternatives, at the beginning of a tape. -/
theorem choice_judged {m₁ m₂ : Reading σ Kind Unit}
    (h₁ : Recognizes script stream m₁ Sentence 0 0) (hreplay₁ : Tape.Replayable m₁)
    (h₂ : Recognizes script stream m₂ Sentence 0 0) (hreplay₂ : Tape.Replayable m₂) :
    Judgement script stream ((Tape.chooseFrom "statement" none [m₁, m₂] >>=
      fun _ => pure .nothing : Reading σ Kind (Value Kind)) (Tape.new stream)) := by
  have htrial₁ := trial_of_recognizes h₁ hreplay₁ (Tape.over_new script stream) rfl
  rcases hspec₁ : Tape.speculate m₁ (Tape.new stream) with ⟨r₁, t₁⟩
  rw [hspec₁] at htrial₁
  cases htrial₁ with
  | @matched u _ hu hspell hmarks hrun =>
      have hchoice : Tape.chooseFrom "statement" none [m₁, m₂] (Tape.new stream)
          = (.ok (), t₁.goto (u.length + 1)) := (Run.bind_of_ok hspec₁).trans hrun
      rw [Run.bind_of_ok hchoice]
      exact .accepted hu hspell rfl hmarks
  | @broken e _ hbroken =>
      have hchoice : Tape.chooseFrom "statement" none [m₁, m₂] (Tape.new stream)
          = (.error (.failed (.lexical e)), t₁) := Run.bind_of_error hspec₁
      rw [Run.bind_of_error hchoice]
      exact .starved hbroken
  | @missed w k token _ hblames hfilled =>
      -- the second alternative runs on the tape that the first one has filled
      have htrial₂ := trial_of_recognizes h₂ hreplay₂ hfilled.isOver hfilled.position
      rcases hspec₂ : Tape.speculate m₂ t₁ with ⟨r₂, t₂⟩
      rw [hspec₂] at htrial₂
      cases htrial₂ with
      | @matched u _ hu hspell hmarks hrun =>
          have hchoice : Tape.chooseFrom "statement" none [m₁, m₂] (Tape.new stream)
              = (.ok (), t₂.goto (u.length + 1)) :=
            (Run.bind_of_ok hspec₁).trans ((Run.bind_of_ok hspec₂).trans hrun)
          rw [Run.bind_of_ok hchoice]
          exact .accepted hu hspell rfl (hmarks.trans hfilled.marks)
      | @broken e _ hbroken =>
          have hchoice : Tape.chooseFrom "statement" none [m₁, m₂] (Tape.new stream)
              = (.error (.failed (.lexical e)), t₂) :=
            (Run.bind_of_ok hspec₁).trans (Run.bind_of_error hspec₂)
          rw [Run.bind_of_error hchoice]
          exact .starved hbroken
      | @missed w' k' token' _ hblames' hfilled' =>
          obtain ⟨w₀, k₀, token₀, hblames₀, hmax, hfurther⟩ := further_mismatch hblames hblames'
          obtain ⟨first, hfirst⟩ := Script.answer_ok_of_le (Nat.zero_le _) hblames.answer
          have hlen : t₂.tokens.length = w₀.length + 1 := by
            rw [hfilled'.length, hfilled.length, hmax]
            show max (max 0 (w.length + 1)) (w'.length + 1) = max w.length w'.length + 1
            omega
          have hpos : t₂.position = 0 := hfilled'.position.trans hfilled.position
          -- the error shows the first token, which is on the tape by now
          have hsight := Tape.sight_over hfilled'.isOver (by omega) (hpos.symm ▸ hfirst)
          rw [hpos] at hsight
          have hchoice : Tape.chooseFrom "statement" none [m₁, m₂] (Tape.new stream)
              = (.error (.failed (.exhausted "statement" (.ofToken 0 first)
                (some (.mismatch k₀ (.ofToken w₀.length token₀))))), t₂) := by
            refine (Run.bind_of_ok hspec₁).trans ((Run.bind_of_ok hspec₂).trans ?_)
            rw [← hfurther]
            exact Run.bind_of_ok hsight
          rw [Run.bind_of_error hchoice]
          exact .rejected hblames₀ hfirst hfilled'.isOver hlen

theorem eval_statement (n : Nat) : Tape.eval grammar (n + 2) (.call .statement)
    = (Tape.chooseFrom "statement" none
        [discard (Tape.eval grammar n (.seq (.call .list) (.expect .eof))),
          discard (Tape.eval grammar n (.seq (.call .assignment) (.expect .eof)))] >>=
      fun _ => pure .nothing : Reading σ Kind (Value Kind)) := rfl

/-- **How a statement ends on a tape**, with fuel in proportion to the script. -/
theorem statement_judged (hs : script.SpokenBy stream) {r : Nat} (hr : script.length ≤ r) :
    Judgement script stream
      (Tape.eval grammar (10 * r + 15 + 2) (.call .statement) (Tape.new stream)) := by
  obtain ⟨h₁, h₂⟩ := recognizes_alternatives hs hr
  have hreplay : ∀ rule, Tape.Replayable (discard
      (Tape.eval grammar (10 * r + 15) (.seq (.call rule) (.expect .eof)) : Reading σ Kind _)) :=
    fun rule => (eval_replayable governs_grammar _ (.seq (lawful_call rule) .expect)).discard
  rw [eval_statement]
  exact choice_judged h₁.discard (hreplay .list) h₂.discard (hreplay .assignment)

/-- The kinds on the tape are those that the script spells. -/
theorem kinds_of_over {t : Tape σ Kind} (ht : t.Over script stream) {w : List Kind}
    (hspell : Spells script.kindAt? 0 w) (hlen : t.tokens.length = w.length) :
    t.tokens.map Token.kind = w := by
  refine List.ext_getElem? fun i => ?_
  rw [List.getElem?_map]
  rcases Nat.lt_or_ge i w.length with hlt | hge
  · have hkind := hspell.getElem? hlt
    have hheld := List.getElem?_eq_getElem (hlen ▸ hlt)
    rw [Nat.zero_add, Script.kindAt?_of_answer (ht.answers i _ hheld)] at hkind
    rw [hheld, ← hkind]
    rfl
  · rw [List.getElem?_eq_none hge, List.getElem?_eq_none (hlen ▸ hge)]
    rfl

/-- No sentence starts with what a refused statement has read.  On a tape with the rest of such a
    sentence behind it the same run would be had again, but the statement has to get through
    there. -/
theorem not_viable_of_refused {n : Nat} {t t' : Tape σ Kind} {e : ParseError Kind}
    (hrun : Tape.eval grammar n (.call .statement) t = (.error (.failed e), t'))
    (hpos : t.position = 0)
    (he : isDefinite (.error (.failed e) : Except (Halt (ParseError Kind)) (Value Kind)) = true) :
    ¬ Viable (t'.tokens.map Token.kind) := by
  rintro ⟨z, u, hu, heq⟩
  -- texts and positions of the added tokens do not matter
  let rest : List (Token Kind) := z.map fun k => ⟨k, ⟨⟨0, []⟩, 0, 0⟩, .start⟩
  let full : Tape σ Kind := { t' with tokens := t'.tokens ++ rest, position := 0 }
  have hkinds : full.tokens.map Token.kind = u ++ [.eof] := by
    have hrest : rest.map Token.kind = z := List.map_map.trans (List.map_id z)
    rw [← heq, ← hrest]
    exact List.map_append
  have hspell : Spells full.kindAt? 0 (u ++ [.eof]) := by
    refine spells_of_getElem? fun i => ?_
    rw [← hkinds, List.getElem?_map, Nat.zero_add]
    rfl
  obtain ⟨hspell, hend, -⟩ := spells_append.mp hspell
  obtain ⟨k, v, hthrough⟩ := hu.reaches hspell hend
  have hagain := (eval_replayable governs_grammar n (lawful_call .statement) t).again
  rw [hrun] at hagain
  -- refused by replay and led through by completeness, with the same fuel
  have hrefused := hagain he full (List.prefix_append _ _) hpos.symm
  have hrising := Tape.eval_rising (σ := σ) grammar (.call .statement)
  have hmax := hrising.eq_of_le hrefused rfl (Nat.le_max_left n k)
  have hmax' := hrising.eq_of_le (hthrough full List.prefix_rfl rfl) rfl (Nat.le_max_right n k)
  have hclash := congrArg Prod.fst (hmax.symm.trans hmax')
  exact nomatch hclash

/-! ## Statements on a parser -/

/-- Without the end of the input a sequence is no longer than the script. -/
theorem length_le_of_spells {last : Token Kind} (hending : script.ending = .ok last)
    {w : List Kind} (hspell : Spells script.kindAt? 0 w) (heof : Kind.eof ∉ w) :
    w.length ≤ script.length := by
  rcases Nat.lt_or_ge script.length w.length with hlt | hge
  · have hkind := hspell.getElem? hlt
    rw [Nat.zero_add, Script.kindAt?_of_ending hending (Nat.le_refl _),
      show script.length = script.kinds.length from (List.length_map _).symm,
      List.getElem?_concat_length] at hkind
    exact absurd (List.mem_of_getElem? hkind.symm) heof
  · exact hge

/-- What is spelled is a beginning of the input. -/
theorem take_of_spells {last : Token Kind} (hending : script.ending = .ok last)
    {w : List Kind} (hspell : Spells script.kindAt? 0 w) (hle : w.length ≤ script.length + 1) :
    (script.kinds ++ [Kind.eof]).take w.length = w := by
  refine (List.prefix_iff_eq_take.mp (List.prefix_iff_getElem?.mpr fun i hi => ?_)).symm
  have hkind := hspell.getElem? hi
  rw [Nat.zero_add, Script.kindAt?_of_ending hending (by omega)] at hkind
  rw [← List.getElem?_eq_getElem hi]
  exact hkind

/-- Behind a parse that ends well the recogniser answers with the statistics of the parser. -/
theorem recognize_of_ok {fuel : Nat} {options : Options} {v : Value Kind} {p : Parser σ Kind}
    (h : Expr.eval grammar fuel (.call .statement) (Parser.new stream options) = (.ok v, p)) :
    recognize fuel options stream = (.ok p.stats, p) :=
  Run.bind_of_ok (Run.discard_of_ok h)

/-- The error of a parse is the error of the recogniser. -/
theorem recognize_of_error {fuel : Nat} {options : Options} {e : Halt (ParseError Kind)}
    {p : Parser σ Kind}
    (h : Expr.eval grammar fuel (.call .statement) (Parser.new stream options) = (.error e, p)) :
    recognize fuel options stream = (.error e, p) :=
  Run.bind_of_error (Run.discard_of_error h)

/-- **How a statement ends on a parser**: with enough fuel it ends as on the tape, in step with
    it. -/
theorem parse_judged (hs : script.SpokenBy stream) {fuel : Nat}
    (hfuel : fuelFor script.length ≤ fuel) (options : Options) :
    ∃ r t p, Judgement script stream (r, t) ∧
      Tape.eval grammar fuel (.call .statement) (Tape.new stream) = (r, t) ∧
      Expr.eval grammar fuel (.call .statement) (Parser.new stream options) = (r, p) ∧
      Mirrors discipline grammar p t := by
  have hjudged := statement_judged hs (Nat.le_refl script.length)
  rcases hr : Tape.eval grammar (10 * script.length + 15 + 2) (.call .statement)
    (Tape.new stream) with ⟨r, t⟩
  rw [hr] at hjudged
  have hset := hjudged.isSettled
  have hle : 10 * script.length + 15 + 2 ≤ fuel := by
    have hfuel' : 16 * (script.length + 2) ≤ fuel := hfuel
    omega
  have htape := (Tape.eval_rising grammar (.call .statement)).eq_of_le hr hset hle
  have hnew : Mirrors discipline grammar (Parser.new stream options) (Tape.new stream) :=
    mirrors_new stream options
  have hlaw : Lawful discipline false (.call .statement) := lawful_call .statement
  have hfollows := eval_follows (σ := σ) governs_grammar functional_grammar fuel hlaw
  have htracked := hfollows.tracked _ _ hnew
  have hkeeps := eval_orderly governs_grammar fuel hlaw _ hnew.sound
  rcases hp : Expr.eval grammar fuel (.call .statement) (Parser.new stream options) with ⟨r', p⟩
  rw [hp] at htracked hkeeps
  rcases htracked.of_settled hfollows.rising htape hset with rfl | ⟨rfl, hmirrors⟩
  · -- the grammar does not look that far
    exact absurd (hkeeps.harmless _ rfl).2 not_deep_grammar
  · exact ⟨_, _, _, hjudged, htape, rfl, hmirrors⟩

namespace Blames

variable {w : List Kind} {k : Kind} {token last : Token Kind}

/-- The token to blame stands right behind the words that are fine. -/
theorem spells_token (h : Blames script w k token) :
    Spells script.kindAt? 0 (w ++ [token.kind]) := by
  refine spells_append.mpr ⟨h.spells, ?_, trivial⟩
  rw [Nat.zero_add]
  exact Script.kindAt?_of_answer h.answer

/-- So these are no more than the script has. -/
theorem length_le (h : Blames script w k token) (hending : script.ending = .ok last) :
    w.length ≤ script.length := by
  obtain ⟨z, hz⟩ := h.fits
  rw [List.append_assoc] at hz
  exact length_le_of_spells hending h.spells hz.eof_not_mem

/-- And they are the kinds it begins with. -/
theorem take_eq (h : Blames script w k token) (hending : script.ending = .ok last) :
    (script.kinds ++ [Kind.eof]).take w.length = w :=
  take_of_spells hending h.spells (Nat.le_succ_of_le (h.length_le hending))

/-- The kind behind them is the one that is not expected. -/
theorem take_succ_eq (h : Blames script w k token) (hending : script.ending = .ok last) :
    (script.kinds ++ [Kind.eof]).take (w.length + 1) = w ++ [token.kind] := by
  have hle := h.length_le hending
  have hlen : (w ++ [token.kind]).length = w.length + 1 := List.length_append
  rw [← hlen]
  exact take_of_spells hending h.spells_token (by omega)

/-- The token that is complained about makes a sentence impossible. -/
theorem dead (h : Blames script w k token) {n : Nat} {first : Token Kind} {t : Tape σ Kind}
    (hrun : Tape.eval grammar n (.call .statement) (Tape.new stream)
      = (.error (.failed (.exhausted "statement" (.ofToken 0 first)
        (some (.mismatch k (.ofToken w.length token))))), t))
    (hover : t.Over script stream) (hlen : t.tokens.length = w.length + 1) :
    ¬ Viable (w ++ [token.kind]) := by
  have hkinds : t.tokens.map Token.kind = w ++ [token.kind] := by
    refine kinds_of_over hover h.spells_token ?_
    rw [hlen, List.length_append]
    rfl
  rw [← hkinds]
  exact not_viable_of_refused hrun rfl rfl

end Blames

/-- An accepted sequence is all of the input. -/
theorem eq_kinds_of_spells {last : Token Kind} (hending : script.ending = .ok last)
    {u : List Kind} (hu : Derives .statement u) (hspell : Spells script.kindAt? 0 (u ++ [.eof])) :
    u = script.kinds := by
  obtain ⟨hfirst, hend, -⟩ := spells_append.mp hspell
  have hle := length_le_of_spells hending hfirst hu.eof_not_mem
  have hlen : (u ++ [Kind.eof]).length = u.length + 1 := List.length_append
  have htake := take_of_spells hending hspell (hlen ▸ Nat.succ_le_succ hle)
  have hge : script.length ≤ u.length := by
    rcases Nat.lt_or_ge u.length script.length with hlt | hge
    · -- an ordinary token is no end of the input
      rw [Nat.zero_add, Script.kindAt?_of_answer (Script.answer_of_lt hlt)] at hend
      have hord := script.ordinary _ (List.getElem_mem hlt)
      rw [Token.isEof, Option.some.inj hend] at hord
      exact absurd hord (by decide)
    · exact hge
  have hall : (script.kinds ++ [Kind.eof]).length ≤ (u ++ [Kind.eof]).length := by
    rw [hlen, List.length_append, show script.kinds.length = script.length from List.length_map _]
    exact Nat.succ_le_succ hge
  rw [List.take_of_length_le hall] at htake
  exact (List.append_cancel_right htake).symm

/-! ## Room for a parser -/

/-- With room for it the parser is a new one. -/
theorem recognizeWith_of_fits {fuel : Nat} {options : Options}
    (h : Window.Fits tokenBytes options.capacity) :
    recognizeWith fuel options stream =
      ((recognize fuel options stream).1, some (recognize fuel options stream).2) := by
  rw [recognizeWith, Parser.setUp_of_fits stream h]
  rfl

/-- Without room there is neither a parser nor a verdict. -/
theorem recognizeWith_of_not_fits {fuel : Nat} {options : Options}
    (h : ¬ Window.Fits tokenBytes options.capacity) :
    recognizeWith fuel options stream = (.error (.fault .capacityOverflow), none) := by
  rw [recognizeWith, Parser.setUp_of_not_fits stream h]

/-- On a new parser the recognizer comes to a verdict: it accepts the sequences of kinds that can be
    derived, and then it has gone behind the end of the input and left no mark. -/
theorem recognize_complete (hs : script.SpokenBy stream) {last : Token Kind}
    (hending : script.ending = .ok last) {fuel : Nat} (hfuel : fuelFor script.length ≤ fuel)
    (options : Options) :
    let o := recognize fuel options stream
    isSettled o.1 = true ∧
      ((∃ stats, o.1 = .ok stats) ↔ Derives .statement script.kinds) ∧
      ∀ stats, o.1 = .ok stats → o.2.absolute = script.length + 1 ∧ o.2.marks.depth = 0 := by
  intro o
  obtain ⟨r, t, p, hjudged, htape, hparse, hmirrors⟩ := parse_judged hs hfuel options
  cases hjudged with
  | @accepted v u _ hu hspell hpos hmarks =>
      have ho : o = (.ok p.stats, p) := recognize_of_ok hparse
      obtain rfl := eq_kinds_of_spells hending hu hspell
      rw [ho]
      refine ⟨rfl, ⟨fun _ => hu, fun _ => ⟨_, rfl⟩⟩, fun _ _ => ⟨?_, ?_⟩⟩
      · calc p.absolute = t.position := hmirrors.window.absolute
          _ = script.kinds.length + 1 := hpos
          _ = script.length + 1 := congrArg (· + 1) (List.length_map _)
      · rw [Marks.depth, ← List.length_map, hmirrors.marks, hmarks]
        rfl
  | @rejected w k first token _ hblames hfirst hover hlen =>
      have ho : o = (.error _, p) := recognize_of_error hparse
      rw [ho]
      refine ⟨rfl, ⟨?_, ?_⟩, fun _ hok => nomatch hok⟩
      · rintro ⟨_, hok⟩
        exact nomatch hok
      · -- the beginning of a sentence would be viable
        intro hu
        refine absurd ?_ (hblames.dead htape hover hlen)
        rw [← hblames.take_succ_eq hending]
        exact Sentence.viable_take ⟨_, hu, rfl⟩ _
  | starved hbroken =>
      obtain ⟨w, -, -, -, he⟩ := hbroken
      exact nomatch hending.symm.trans he

/-- **The recognizer accepts exactly the list language**: over a stream of ordinary tokens with the
    end of the input behind them, and with room for as many tokens of 64 bytes as the options say
    (less than `2 ^ 63` bytes in all), it always comes to a verdict; it accepts if and only if the
    kinds can be derived, and then it has gone behind the end of the input and left no mark.
    Without that room there is no parser, whatever the stream holds. -/
theorem recognize_iff (hs : script.SpokenBy stream) {last : Token Kind}
    (hending : script.ending = .ok last) {fuel : Nat} (hfuel : fuelFor script.length ≤ fuel)
    (options : Options) :
    let o := recognizeWith fuel options stream
    (options.capacity * 64 < 0x8000000000000000 → ∃ p, o.2 = some p ∧ isSettled o.1 = true ∧
        ((∃ stats, o.1 = .ok stats) ↔ Derives .statement script.kinds) ∧
        ∀ stats, o.1 = .ok stats → p.absolute = script.length + 1 ∧ p.marks.depth = 0) ∧
      (0x8000000000000000 ≤ options.capacity * 64 →
        o = (.error (.fault .capacityOverflow), none)) := by
  intro o
  constructor
  · intro hroom
    have ho : o = _ := recognizeWith_of_fits hroom
    rw [ho]
    exact ⟨_, rfl, recognize_complete hs hending hfuel options⟩
  · intro hnone
    exact recognizeWith_of_not_fits (Nat.not_lt.mpr hnone)

/-- An assignment with an identifier on its left side is accepted. -/
theorem recognize_iff_assignment :
    let text := "[a]=[]"
    let cut (kind : Kind) (start stop : Nat) : Token Kind :=
      ⟨kind, ⟨⟨0, text.toList⟩, start, stop⟩, ⟨1, start + 1, start⟩⟩
    ∃ script : Script Kind,
      script.tokens = [cut .lbrack 0 1, cut .ident 1 2, cut .rbrack 2 3, cut .equals 3 4,
        cut .lbrack 4 5, cut .rbrack 5 6] ∧
      script.SpokenBy (ListLexer.ofText text) ∧
      ∃ stats p, (recognizeWith (fuelFor 6) ⟨true, 16⟩ (ListLexer.ofText text)).1 = .ok stats ∧
        (recognizeWith (fuelFor 6) ⟨true, 16⟩ (ListLexer.ofText text)).2 = some p ∧
        p.absolute = 7 ∧ p.marks.depth = 0 := by
  intro text cut
  let script : Script Kind :=
    { tokens := [cut .lbrack 0 1, cut .ident 1 2, cut .rbrack 2 3, cut .equals 3 4,
        cut .lbrack 4 5, cut .rbrack 5 6]
      ending := .ok (cut .eof 6 6)
      ordinary := by decide
      final := fun k hk => Except.ok.inj hk ▸ rfl }
  have hs : script.SpokenBy (ListLexer.ofText text) := by decide +kernel
  have hkinds : Derives .statement script.kinds :=
    .ofAssignment (.assignment (.list (.last .ident)) .emptyList)
  obtain ⟨p, hp, -, haccepts, hplace⟩ :=
    (recognize_iff hs rfl (Nat.le_refl (fuelFor 6)) ⟨true, 16⟩).1 (by decide)
  obtain ⟨stats, hstats⟩ := haccepts.mpr hkinds
  exact ⟨script, rfl, hs, stats, p, hstats, hp, hplace stats hstats⟩

/-- A list is not accepted by a parser that is to have room for as many tokens as can be counted. -/
theorem recognize_iff_not_without_room :
    let text := "[a]"
    let cut (kind : Kind) (start stop : Nat) : Token Kind :=
      ⟨kind, ⟨⟨0, text.toList⟩, start, stop⟩, ⟨1, start + 1, start⟩⟩
    ∃ script : Script Kind,
      script.tokens = [cut .lbrack 0 1, cut .ident 1 2, cut .rbrack 2 3] ∧
      script.ending = .ok (cut .eof 3 3) ∧ script.SpokenBy (ListLexer.ofText text) ∧
      Derives .statement script.kinds ∧
      recognizeWith (fuelFor 3) ⟨true, 0xFFFFFFFFFFFFFFFF⟩ (ListLexer.ofText text) =
        (.error (.fault .capacityOverflow), none) := by
  intro text cut
  let script : Script Kind :=
    { tokens := [cut .lbrack 0 1, cut .ident 1 2, cut .rbrack 2 3]
      ending := .ok (cut .eof 3 3)
      ordinary := by decide
      final := fun k hk => Except.ok.inj hk ▸ rfl }
  exact ⟨script, rfl, rfl, by decide +kernel, .ofList (.list (.last .ident)),
    recognizeWith_of_not_fits (by decide)⟩

/-- **Complaints about the syntax are exact**: over a stream of ordinary tokens with the end of the
    input behind them whose kinds cannot be derived, the complaint shows the first token and,
    inside, the token at the position `p` where a sentence becomes impossible, with a kind that
    could have stood there; and the stream is not asked for anything behind that token.  Of a token
    its kind is shown, its text, its position in the stream and its place in the text. -/
theorem recognize_error_exact (hs : script.SpokenBy stream) {last : Token Kind}
    (hending : script.ending = .ok last) {fuel : Nat} (hfuel : fuelFor script.length ≤ fuel)
    (options : Options) (hnot : ¬ Derives .statement script.kinds) :
    let o := recognize fuel options (Metered.new stream)
    let input := script.kinds ++ [.eof]
    ∃ p k first token, p ≤ script.length ∧ script.answer 0 = .ok first ∧
      script.answer p = .ok token ∧
      o.1 = .error (.failed (.exhausted "statement"
        ⟨first.kind, first.text.text, 0, first.position⟩
        (some (.mismatch k ⟨token.kind, token.text.text, p, token.position⟩)))) ∧
      Viable (input.take p) ∧ ¬ Viable (input.take (p + 1)) ∧ Viable (input.take p ++ [k]) ∧
      o.2.window.stream.calls = p + 1 := by
  intro o input
  obtain ⟨r, t, q, hjudged, htape, hparse, hmirrors⟩ := parse_judged hs.metered hfuel options
  cases hjudged with
  | @accepted v u _ hu hspell _ _ =>
      rw [eq_kinds_of_spells hending hu hspell] at hu
      exact absurd hu hnot
  | @rejected w k first token _ hblames hfirst hover hlen =>
      have ho : o = (.error _, q) := recognize_of_error hparse
      have hle := hblames.length_le hending
      obtain ⟨z, hz⟩ := hblames.fits
      rw [List.append_assoc] at hz
      refine ⟨w.length, k, first, token, hle, hfirst, hblames.answer, ?_, ?_, ?_, ?_, ?_⟩
      · rw [ho]
        rfl
      · rw [hblames.take_eq hending]
        exact ⟨[k] ++ z, hz⟩
      · rw [hblames.take_succ_eq hending]
        exact hblames.dead htape hover hlen
      · rw [hblames.take_eq hending]
        exact hblames.fits
      · -- the stream has been asked once for every token on the tape
        have hpulled : t.pulled = w.length + 1 := by
          rw [hover.pulled, hlen]
          omega
        rw [ho, hmirrors.window.stream, hover.stream, hpulled, Metered.after_new]
  | starved hbroken =>
      obtain ⟨w, -, -, -, he⟩ := hbroken
      exact nomatch hending.symm.trans he

/-- A list that is not closed is complained about at the end of the input, which is the third token:
    there could be a closing bracket. -/
theorem recognize_error_exact_unclosed :
    let text := "[a"
    let cut (kind : Kind) (start stop : Nat) : Token Kind :=
      ⟨kind, ⟨⟨0, text.toList⟩, start, stop⟩, ⟨1, start + 1, start⟩⟩
    ∃ script : Script Kind,
      script.tokens = [cut .lbrack 0 1, cut .ident 1 2] ∧
      script.SpokenBy (ListLexer.ofText text) ∧
      (recognize (fuelFor 2) ⟨false, 16⟩ (Metered.new (ListLexer.ofText text))).1
        = .error (.failed (.exhausted "statement" ⟨.lbrack, "[", 0, ⟨1, 1, 0⟩⟩
          (some (.mismatch .rbrack ⟨.eof, "", 2, ⟨1, 3, 2⟩⟩)))) ∧
      Viable [.lbrack, .ident] ∧ ¬ Viable [.lbrack, .ident, .eof] ∧
      Viable [.lbrack, .ident, .rbrack] ∧
      (recognize (fuelFor 2) ⟨false, 16⟩ (Metered.new (ListLexer.ofText text))
        ).2.window.stream.calls = 3 := by
  intro text cut
  let script : Script Kind :=
    { tokens := [cut .lbrack 0 1, cut .ident 1 2]
      ending := .ok (cut .eof 2 2)
      ordinary := by decide
      final := fun k hk => Except.ok.inj hk ▸ rfl }
  have hs : script.SpokenBy (ListLexer.ofText text) := by decide +kernel
  have hnot : ¬ Derives .statement script.kinds := by
    generalize hw : script.kinds = w
    intro h
    cases h with
    | ofList h =>
        cases h with
        | emptyList => exact nomatch hw
        | list _ =>
            have hlast := congrArg List.getLast? hw
            rw [← List.cons_append, List.getLast?_concat] at hlast
            exact nomatch hlast
    | ofAssignment h =>
        cases h with
        | assignment _ _ =>
            have hmem : Kind.equals ∈ script.kinds := by
              rw [hw]
              exact List.mem_append_right _ List.mem_cons_self
            exact absurd hmem (by decide)
  obtain ⟨p, k, first, token, -, -, -, herror, hviable, hdead, hcould, hcalls⟩ :=
    recognize_error_exact hs rfl (Nat.le_refl (fuelFor 2)) ⟨false, 16⟩ hnot
  have hshown : (recognize (fuelFor 2) ⟨false, 16⟩ (Metered.new (ListLexer.ofText text))).1 =
      .error (.failed (.exhausted "statement" ⟨.lbrack, "[", 0, ⟨1, 1, 0⟩⟩
        (some (.mismatch .rbrack ⟨.eof, "", 2, ⟨1, 3, 2⟩⟩)))) := by decide +kernel
  -- what is shown tells the position and the kind
  obtain ⟨rfl, rfl⟩ : p = 2 ∧ k = .rbrack := by
    have hsame := herror.symm.trans hshown
    simp only [Except.error.injEq, Halt.failed.injEq, ParseError.exhausted.injEq,
      Option.some.injEq, ParseError.mismatch.injEq, Sighting.mk.injEq] at hsame
    exact ⟨hsame.2.2.2.2.2.1, hsame.2.2.1⟩
  exact ⟨script, rfl, hs, hshown, hviable, hdead, hcould, hcalls⟩

end Packrat.ListLang
