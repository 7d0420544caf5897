import Packrat.ListLang.Lexer
import Packrat.Proofs.ListLang.Lexemes
import Packrat.Proofs.Rounds
import Packrat.Proofs.Script

/-! # The lexer finds the words

    The lexer tries three rules in turn at every place and never looks at the text
    as a whole.  Here each round is matched with a step of `Cut`: a gap is one
    round, a word is one round, and the place where the way ends is where the lexer
    says so, every time it is asked.  What the tokens are then follows from what is
    known about the way. -/

namespace Packrat.ListLang

/-! ## One round of rules -/

variable {source : SourceText} {before : List Char}

theorem ofPunctuation?_of_isAlpha {c : Char} (h : c.isAlpha = true) :
    Kind.ofPunctuation? c = none := by
  cases hkind : Kind.ofPunctuation? c with
  | none => rfl
  | some kind => exact nomatch h.symm.trans (isAlpha_of_mark (ofPunctuation?_eq_some.mp hkind))

theorem declines_blankRule (c : Char) : blankRule.declines (some c) = !Text.isBlank c :=
  Rule.declines_class Text.isBlank rfl c

theorem declines_punctuationRule (c : Char) :
    punctuationRule.declines (some c) = !(Kind.ofPunctuation? c).isSome :=
  Rule.declines_class (fun ch => (Kind.ofPunctuation? ch).isSome) rfl c

theorem declines_identRule (c : Char) : identRule.declines (some c) = !c.isAlpha :=
  Rule.declines_class Char.isAlpha rfl c

/-- On a gap, the rule for blanks takes all of it and gives no token. -/
theorem attempt_blankRule {gap ahead : List Char} (hne : gap ≠ [])
    (hgap : ∀ c ∈ gap, Text.isBlank c = true) (hahead : ∀ c ∈ ahead.head?, Text.isBlank c = false) :
    blankRule.attempt (.between source before (gap ++ ahead)) =
      (some .skip, .between source (before ++ gap) ahead, blankRule) := by
  rw [Rule.attempt, blankRule]
  simp only [Cursor.consumeWhile_between hgap hahead, Slice.isEmpty_behind hne]
  rfl

/-- On a mark, the rule for punctuation takes this one character, whatever is behind it. -/
theorem attempt_punctuationRule {c : Char} {kind : Kind} (hmark : (c, kind) ∈ marks)
    (after : List Char) :
    punctuationRule.attempt (.between source before ([c] ++ after)) =
      (some (.token (tokenOf source before kind [c])), .between source (before ++ [c]) after,
        punctuationRule) := by
  have hkind : (Cursor.between source before (c :: after)).peek.bind Kind.ofPunctuation? =
      some kind := ofPunctuation?_eq_some.mpr hmark
  rw [Rule.attempt, punctuationRule, List.singleton_append]
  simp only [hkind, Cursor.advance_between]
  rw [tokenOf, ← Cursor.sliceFrom_between [c] after]
  rfl

/-- On letters, the rule for identifiers takes all of them. -/
theorem attempt_identRule {lexeme after : List Char} (hne : lexeme ≠ [])
    (hletters : ∀ c ∈ lexeme, c.isAlpha = true) (hend : ∀ c ∈ after.head?, c.isAlpha = false) :
    identRule.attempt (.between source before (lexeme ++ after)) =
      (some (.token (tokenOf source before .ident lexeme)),
        .between source (before ++ lexeme) after, identRule) := by
  rw [Rule.attempt, identRule]
  simp only [Cursor.consumeWhile_between hletters hend, Slice.isEmpty_behind hne]
  rfl

/-- The lexer with `before` behind it and `ahead` ahead. -/
def lexerAt (source : SourceText) (before ahead : List Char) (done : Bool) : ListLexer :=
  ⟨rules, .between source before ahead, Cursor.isEof, done⟩

/-- In a new lexer the rules are tried in the order in which they are given. -/
theorem ofText_eq (text : String) :
    ListLexer.ofText text = lexerAt ⟨0, text.toList⟩ [] text.toList false := rfl

variable {done : Bool}

/-- A gap is skipped in one round. -/
theorem round_gap {gap ahead : List Char} (hne : gap ≠ [])
    (hgap : ∀ c ∈ gap, Text.isBlank c = true) (hahead : ∀ c ∈ ahead.head?, Text.isBlank c = false) :
    Lexer.round (lexerAt source before (gap ++ ahead) done) =
      (.ok .skip, lexerAt source (before ++ gap) ahead done) := by
  refine Lexer.round_of_hit
    (Lexer.firstMatch_of_hit _ ?_ (attempt_blankRule hne hgap hahead)) ?_
  · obtain ⟨c, cs, rfl⟩ := List.exists_cons_of_ne_nil hne
    show blankRule.declines (some c) = false
    rw [declines_blankRule, hgap c List.mem_cons_self]
    rfl
  · show byteLength before < byteLength (before ++ gap)
    rw [byteLength_append]
    exact Nat.lt_add_of_pos_right (byteLength_pos hne)

/-- A word is the hit of one of the two other rules. -/
theorem firstMatch_word {kind : Kind} {lexeme after : List Char} (h : Leads kind lexeme after) :
    Lexer.firstMatch (Cursor.between source before (lexeme ++ after)).peek
        (.between source before (lexeme ++ after)) rules =
      (some (.token (tokenOf source before kind lexeme)), .between source (before ++ lexeme) after,
        rules) := by
  obtain ⟨c, cs, rfl, hblank⟩ := h.exists_cons
  have hfirst : blankRule.declines (some c) = true := by
    rw [declines_blankRule, hblank]
    rfl
  have hpeek : (Cursor.between source before (c :: cs ++ after)).peek = some c := rfl
  rw [rules, hpeek, Lexer.firstMatch_of_declines hfirst]
  rcases h.cases_head with ⟨hmark, rfl⟩ | ⟨rfl, hletters, hend⟩
  · have hsecond : punctuationRule.declines (some c) = false := by
      rw [declines_punctuationRule, ofPunctuation?_eq_some.mpr hmark]
      rfl
    rw [Lexer.firstMatch_of_hit _ hsecond (attempt_punctuationRule hmark after)]
  · have hletter := hletters c List.mem_cons_self
    have hsecond : punctuationRule.declines (some c) = true := by
      rw [declines_punctuationRule, ofPunctuation?_of_isAlpha hletter]
      rfl
    have hthird : identRule.declines (some c) = false := by
      rw [declines_identRule, hletter]
      rfl
    rw [Lexer.firstMatch_of_declines hsecond,
      Lexer.firstMatch_of_hit _ hthird (attempt_identRule h.ne_nil hletters hend)]

/-- So a round at a lexeme gives its token: the first character decides which of the rules takes it,
    and that one takes the whole lexeme. -/
theorem round_word {kind : Kind} {lexeme after : List Char} (h : Leads kind lexeme after) :
    Lexer.round (lexerAt source before (lexeme ++ after) done) =
      (.ok (.token (tokenOf source before kind lexeme)),
        lexerAt source (before ++ lexeme) after done) := by
  refine Lexer.round_of_hit (firstMatch_word h) ?_
  show byteLength before < byteLength (before ++ lexeme)
  rw [byteLength_append]
  exact Nat.lt_add_of_pos_right (byteLength_pos h.ne_nil)

/-- At a character of no class all rules decline. -/
theorem round_inadmissible {c : Char} (h : ¬ IsAdmissible c) (after : List Char) :
    Lexer.round (lexerAt source before (c :: after) done) =
      (.error (.failed (.invalidCharacter c (.behind before))),
        lexerAt source before (c :: after) done) := by
  have hfirst : blankRule.declines (some c) = true := by
    rw [declines_blankRule, Bool.eq_false_iff.mpr fun hblank => h (Or.inl hblank)]
    rfl
  have hsecond : punctuationRule.declines (some c) = true := by
    rw [declines_punctuationRule]
    cases hkind : Kind.ofPunctuation? c with
    | none => rfl
    | some kind => exact absurd (Or.inr (Or.inr ⟨kind, ofPunctuation?_eq_some.mp hkind⟩)) h
  have hthird : identRule.declines (some c) = true := by
    rw [declines_identRule, Bool.eq_false_iff.mpr fun hletter => h (Or.inr (Or.inl hletter))]
    rfl
  have hnone : Lexer.firstMatch (some c) (.between source before (c :: after)) rules =
      (none, .between source before (c :: after), rules) := by
    rw [rules, Lexer.firstMatch_of_declines hfirst, Lexer.firstMatch_of_declines hsecond,
      Lexer.firstMatch_of_declines hthird]
    rfl
  rw [Lexer.round, show Lexer.firstMatch (lexerAt source before (c :: after) done).cursor.peek
    (lexerAt source before (c :: after) done).cursor
    (lexerAt source before (c :: after) done).rules = (none, _, rules) from hnone]
  rfl

/-! ## The next token -/

/-- A gap takes one round, and there is fuel left behind it. -/
theorem nextToken_gap {gap ahead : List Char} (hgap : ∀ c ∈ gap, Text.isBlank c = true)
    (hahead : ∀ c ∈ ahead.head?, Text.isBlank c = false) {fuel : Nat}
    (hfuel : (gap ++ ahead).length < fuel)
    {answer : Except (Halt LexError) (Token Kind) × ListLexer}
    (h : ∀ fuel, Lexer.nextToken (fuel + 1) (lexerAt source (before ++ gap) ahead done) = answer) :
    Lexer.nextToken fuel (lexerAt source before (gap ++ ahead) done) = answer := by
  obtain ⟨fuel, rfl⟩ := Nat.exists_eq_add_one.mpr (Nat.zero_lt_of_lt hfuel)
  cases gap with
  | nil =>
      rw [← h fuel, List.append_nil]
      rfl
  | cons c gap =>
      rw [List.length_append, List.length_cons] at hfuel
      obtain ⟨fuel, rfl⟩ := Nat.exists_eq_add_one.mpr (show 0 < fuel by omega)
      rw [← h fuel]
      exact Lexer.nextToken_of_skip rfl (round_gap (List.cons_ne_nil _ _) hgap hahead) _

/-- A call skips the gap and answers with the lexeme behind it. -/
theorem nextToken_word {kind : Kind} {gap lexeme after : List Char}
    (hgap : ∀ c ∈ gap, Text.isBlank c = true) (hleads : Leads kind lexeme after) {fuel : Nat}
    (hfuel : (gap ++ (lexeme ++ after)).length < fuel) :
    Lexer.nextToken fuel (lexerAt source before (gap ++ (lexeme ++ after)) done) =
      (.ok (tokenOf source (before ++ gap) kind lexeme),
        lexerAt source (before ++ gap ++ lexeme) after done) := by
  have hround : Lexer.round (lexerAt source (before ++ gap) (lexeme ++ after) done) = _ :=
    round_word hleads
  obtain ⟨c, cs, rfl, hblank⟩ := hleads.exists_cons
  exact nextToken_gap hgap (by simpa using hblank) hfuel (Lexer.nextToken_of_token rfl hround)

/-- The token for the end of the input behind `text`. -/
def endToken (source : SourceText) (text : List Char) : Token Kind :=
  ⟨.eof, .behind source text [], .behind text⟩

/-- What the lexer says where the way ends. -/
def verdict (source : SourceText) (final left : List Char) : Except LexError (Token Kind) :=
  match left with
  | [] => .ok (endToken source final)
  | c :: _ => .error (.invalidCharacter c (.behind final))

/-- When no lexeme is behind the gap, the call skips the gap all the same and then gives the verdict
    on what is left. -/
theorem nextToken_stop {gap left : List Char} (hgap : ∀ c ∈ gap, Text.isBlank c = true)
    (hleft : ∀ c ∈ left.head?, ¬ IsAdmissible c) {fuel : Nat}
    (hfuel : (gap ++ left).length < fuel) :
    Lexer.nextToken fuel (lexerAt source before (gap ++ left) done) =
      ((verdict source (before ++ gap) left).mapError .failed,
        lexerAt source (before ++ gap) left done) := by
  cases left with
  | nil =>
      have hnil : ∀ c ∈ ([] : List Char).head?, Text.isBlank c = false := fun _ h => nomatch h
      exact nextToken_gap hgap hnil hfuel (Lexer.nextToken_of_end rfl)
  | cons c left =>
      have hc := hleft c rfl
      have hblank : Text.isBlank c = false := Bool.eq_false_iff.mpr fun h => hc (Or.inl h)
      exact nextToken_gap hgap (by simpa using hblank) hfuel
        (Lexer.nextToken_of_error rfl (round_inadmissible hc left))

/-! ## Call after call -/

/-- The stream has fuel enough for every call, so that its answer is that of the lexer. -/
theorem next_of_nextToken {lx lx' : ListLexer} {answer : Except LexError (Token Kind)}
    (h : Lexer.nextToken (ListLexer.fuel lx) lx = (answer.mapError .failed, lx')) :
    TokenStream.next lx = (answer, lx') := by
  show ListLexer.next lx = _
  rw [ListLexer.next, h]
  cases answer with
  | error e => rfl
  | ok t => rfl

/-- In the stream, a lexeme is the next answer whatever gap is before it. -/
theorem next_word {kind : Kind} {gap lexeme after : List Char}
    (hgap : ∀ c ∈ gap, Text.isBlank c = true) (hleads : Leads kind lexeme after) :
    TokenStream.next (lexerAt source before (gap ++ (lexeme ++ after)) done) =
      (.ok (tokenOf source (before ++ gap) kind lexeme),
        lexerAt source (before ++ gap ++ lexeme) after done) := by
  have hnext : Lexer.nextToken _ (lexerAt source before (gap ++ (lexeme ++ after)) done) = _ :=
    nextToken_word hgap hleads (Nat.lt_succ_self _)
  exact next_of_nextToken hnext

/-- And the last answer is the verdict on what no lexeme begins with. -/
theorem next_stop {gap left : List Char} (hgap : ∀ c ∈ gap, Text.isBlank c = true)
    (hleft : ∀ c ∈ left.head?, ¬ IsAdmissible c) :
    TokenStream.next (lexerAt source before (gap ++ left) done) =
      (verdict source (before ++ gap) left, lexerAt source (before ++ gap) left done) := by
  have hnext : Lexer.nextToken _ (lexerAt source before (gap ++ left) done) = _ :=
    nextToken_stop hgap hleft (Nat.lt_succ_self _)
  exact next_of_nextToken hnext

/-- Where the way ends the lexer stays, and it says the same every time. -/
theorem answer_stop {gap left : List Char} (hgap : ∀ c ∈ gap, Text.isBlank c = true)
    (hleft : ∀ c ∈ left.head?, ¬ IsAdmissible c) (i : Nat) :
    TokenStream.answer (lexerAt source before (gap ++ left) done) i =
      verdict source (before ++ gap) left := by
  induction i generalizing before gap with
  | zero => exact congrArg Prod.fst (next_stop hgap hleft)
  | succ i ih =>
      have hnone : ∀ c ∈ ([] : List Char), Text.isBlank c = true := fun _ h => nomatch h
      rw [TokenStream.answer_succ, next_stop hgap hleft]
      have hagain : TokenStream.answer (lexerAt source (before ++ gap) ([] ++ left) done) i = _ :=
        ih hnone
      rw [List.append_nil] at hagain
      exact hagain

/-- The calls are answered with the tokens on the way, and then with the verdict. -/
theorem answer_cut {ahead final left : List Char} {tokens : List (Token Kind)}
    (h : Cut source before ahead tokens final left) (i : Nat) :
    TokenStream.answer (lexerAt source before ahead done) i =
      (tokens[i]?.map .ok).getD (verdict source final left) := by
  induction h generalizing i with
  | stop hgap hleft => exact answer_stop hgap hleft i
  | token hgap hleads _ ih =>
      cases i with
      | zero => exact congrArg Prod.fst (next_word hgap hleads)
      | succ i =>
          rw [TokenStream.answer_succ, next_word hgap hleads, List.getElem?_cons_succ]
          exact ih i

/-! ## The whole sequence -/

/-- What the sequence holds behind the last token. -/
def complaint (final left : List Char) : List (Except LexError (Token Kind)) :=
  match left with
  | [] => []
  | c :: _ => [.error (.invalidCharacter c (.behind final))]

theorem isEof_tokenOf {kind : Kind} {lexeme after : List Char} (h : Leads kind lexeme after) :
    (tokenOf source before kind lexeme).isEof = false := by
  have hne : kind ≠ .eof := by
    cases h with
    | mark hmark =>
        have htable : ∀ mark ∈ marks, mark.2 ≠ .eof := by decide
        exact htable _ hmark
    | letters => exact nofun
  exact beq_eq_false_iff_ne.mpr hne

/-- The sequence has the tokens of the cut, one by one, and then the complaint if there is one. -/
theorem itemsUpTo_cut {ahead final left : List Char} {tokens : List (Token Kind)}
    (h : Cut source before ahead tokens final left) {fuel count : Nat} (hfuel : ahead.length < fuel)
    (hcount : tokens.length + left.length < count) :
    ∃ lx, Lexer.itemsUpTo fuel count (lexerAt source before ahead false) =
      (.ok (tokens.map .ok ++ complaint final left), lx) := by
  obtain ⟨count, rfl⟩ := Nat.exists_eq_add_one.mpr (Nat.zero_lt_of_lt hcount)
  induction h generalizing count with
  | @stop before gap left hgap hleft =>
      have hnext : Lexer.nextToken fuel (lexerAt source before (gap ++ left) false) = _ :=
        nextToken_stop hgap hleft hfuel
      cases left with
      | nil => exact ⟨_, Lexer.itemsUpTo_of_none (Lexer.next?_of_eof rfl hnext rfl) count⟩
      | cons c left =>
          obtain ⟨count, rfl⟩ := Nat.exists_eq_add_one.mpr (show 0 < count by
            rw [List.length_nil, List.length_cons] at hcount
            omega)
          exact ⟨_, Lexer.itemsUpTo_of_error (Lexer.next?_of_error rfl hnext)
            (Lexer.itemsUpTo_of_none (Lexer.next?_of_done rfl fuel) count)⟩
  | @token before gap lexeme after _ _ kind tokens hgap hleads _ ih =>
      have hnext : Lexer.nextToken fuel (lexerAt source before (gap ++ (lexeme ++ after)) false)
          = _ := nextToken_word hgap hleads hfuel
      rw [List.length_append, List.length_append] at hfuel
      rw [List.length_cons] at hcount
      obtain ⟨count, rfl⟩ := Nat.exists_eq_add_one.mpr (show 0 < count by omega)
      obtain ⟨lx, hrest⟩ := ih (by omega) count (by omega)
      have hsome := Lexer.next?_of_token rfl hnext (isEof_tokenOf hleads)
      exact ⟨lx, Lexer.itemsUpTo_of_some hsome hrest⟩

/-- The first error stands for the whole list. -/
theorem mapM_complaint (tokens : List (Token Kind)) (final left : List Char) :
    (tokens.map Except.ok ++ complaint final left).mapM id = match left with
      | [] => .ok tokens
      | c :: _ => .error (.invalidCharacter c (.behind final)) := by
  induction tokens with
  | nil => cases left <;> rfl
  | cons t tokens ih =>
      rw [List.map_cons, List.cons_append, List.mapM_cons, ih]
      cases left <;> rfl

/-- The sequence of tokens is what is cut on the way. -/
theorem tokenize_cut {text : String} {final left : List Char} {tokens : List (Token Kind)}
    (h : Cut ⟨0, text.toList⟩ [] text.toList tokens final left) :
    tokenize text = match left with
      | [] => .ok tokens
      | c :: _ => .error (.invalidCharacter c (.behind final)) := by
  obtain ⟨lx, hitems⟩ :=
    itemsUpTo_cut h (Nat.lt_succ_self _) (Nat.lt_succ_of_le h.length_le)
  have htokenize : Lexer.tokenize (ListLexer.fuel (ListLexer.ofText text)) (ListLexer.ofText text) =
      _ := Run.bind_of_ok hitems
  rw [mapM_complaint] at htokenize
  -- opened by hand: its equation is slow to derive
  delta tokenize
  dsimp only
  rw [htokenize]
  cases left <;> rfl

/-- What is said of the tokens when a text has been read to its end: they are its words, in order
    and without overlap, everything outside them is blank, and with the gaps put back they are the
    text. -/
structure Transcript (text : String) (tokens : List (Token Kind)) : Prop where
  words : ∀ t, t ∈ tokens ↔ ∃ before kind lexeme after,
    Stands ⟨0, text.toList⟩ t before kind lexeme after ∧ t.text.chars = lexeme
  filled : ∀ t ∈ tokens, t.text.start < t.text.stop
  ordered : tokens.Pairwise fun t u => t.text.stop ≤ u.text.start
  blank_outside : ∀ before c after, text.toList = before ++ c :: after →
    Text.isBlank c = false →
      ∃ t ∈ tokens, t.text.start ≤ byteLength before ∧ byteLength before < t.text.stop
  lossless : ∃ gaps last, gaps.length = tokens.length ∧
    (∀ gap ∈ last :: gaps, ∀ c ∈ gap, Text.isBlank c = true) ∧
    text.toList = (List.zipWith (fun gap t => gap ++ t.text.chars) gaps tokens).flatten ++ last

theorem transcript_cut {text : String} {final : List Char} {tokens : List (Token Kind)}
    (h : Cut ⟨0, text.toList⟩ [] text.toList tokens final []) : Transcript text tokens where
  words := by
    intro t
    rw [h.mem_iff]
    constructor
    · rintro ⟨before, kind, lexeme, after, hstands⟩
      refine ⟨before, kind, lexeme, after, hstands, ?_⟩
      rw [hstands.token]
      exact Slice.chars_behind hstands.text
    · rintro ⟨before, kind, lexeme, after, hstands, -⟩
      exact ⟨before, kind, lexeme, after, hstands⟩
  filled := fun t ht => (h.ordered.1 t ht).2
  ordered := h.ordered.2
  blank_outside := fun _ _ _ hplace hc => h.blank_outside hplace hc
  lossless := h.spread rfl rfl

/-- **The lexer is exact and lossless**: a text is read to its end if all its characters are
    admissible, and only then; the tokens are its transcript, and call after call the lexer yields
    them and then the end of the input at the end of the text.  Otherwise the first character that
    is not admissible is reported at its place. -/
theorem tokenize_exact (text : String) :
    ((∃ tokens, tokenize text = .ok tokens) ↔ ∀ c ∈ text.toList, IsAdmissible c) ∧
      match tokenize text with
      | .ok tokens => Transcript text tokens ∧ ∀ i,
          TokenStream.answer (ListLexer.ofText text) i =
            .ok (tokens[i]?.getD (endToken ⟨0, text.toList⟩ text.toList))
      | .error e => ∃ before c after, text.toList = before ++ c :: after ∧
          (∀ b ∈ before, IsAdmissible b) ∧ ¬ IsAdmissible c ∧
          e = .invalidCharacter c (.behind before) := by
  obtain ⟨tokens, final, left, hcut⟩ := exists_cut ⟨0, text.toList⟩ [] text.toList
  obtain ⟨_, rfl, hpassed⟩ := hcut.isAdmissible
  have htext : text.toList = final ++ left := hcut.text_eq
  have htokenize := tokenize_cut hcut
  cases left with
  | nil =>
      obtain rfl : text.toList = final := htext.trans (List.append_nil _)
      rw [htokenize]
      refine ⟨⟨fun _ => hpassed, fun _ => ⟨tokens, rfl⟩⟩, transcript_cut hcut, ?_⟩
      intro i
      rw [ofText_eq, answer_cut hcut]
      cases tokens[i]? <;> rfl
  | cons c left =>
      have hc : ¬ IsAdmissible c := hcut.head_left c rfl
      rw [htokenize]
      refine ⟨⟨?_, ?_⟩, final, c, left, htext, hpassed, hc, rfl⟩
      · rintro ⟨_, hok⟩
        exact nomatch hok
      · intro hall
        refine absurd (hall c ?_) hc
        rw [htext]
        exact List.mem_append_right _ List.mem_cons_self

-- the ideographic space takes three bytes and one column
example : (tokenize "ab,\n\u3000c").map (·.map fun t => (t.kind, t.text.chars, t.position)) =
    .ok [(.ident, ['a', 'b'], ⟨1, 1, 0⟩), (.comma, [','], ⟨1, 3, 2⟩),
      (.ident, ['c'], ⟨2, 2, 7⟩)] := by
  decide +kernel

end Packrat.ListLang
