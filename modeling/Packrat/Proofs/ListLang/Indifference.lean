import Packrat.Proofs.LexerRuns
import Packrat.Proofs.ListLang.Lexing

/-! # The order of the list rules does not matter

    The order in which rules are tried is there for texts that several of them
    match, and a quick check saves a try that would be in vain.  Where no two rules
    ever match at the same place, and a rule declines only where it would not match,
    both are a matter of speed: a round finds the one match that there is
    (`matchApart_eq_some`).

    The rules of the list language are such rules, since a character begins a match
    of at most one of them (`taker`).  None of them remembers anything, and none
    leaves the text, so what holds of a round holds of all that follow. -/

namespace Packrat

variable {ρ κ : Type}

variable {source : SourceText}

namespace Rule

/-- What the rule matches when it is tried with `c`, and where the match ends. -/
def hit? (r : Rule ρ κ) (c : Cursor) : Option (Lexeme (Token κ) × Cursor) :=
  (r.tryMatch r.memory c).1.map fun lexeme => (lexeme, (r.tryMatch r.memory c).2.2)

/-- The second rule matches like the first.  Its priority is any, and its quick check is the same or
    never guesses. -/
structure Restates (r s : Rule ρ κ) : Prop where
  tryMatch : s.tryMatch = r.tryMatch
  memory : s.memory = r.memory
  quickCheck : s.quickCheck = r.quickCheck ∨ s.quickCheck = fun _ _ => none

/-- A rule hits where the one it restates does. -/
theorem Restates.hit? {r s : Rule ρ κ} (h : r.Restates s) (c : Cursor) :
    s.hit? c = r.hit? c := by
  rw [Rule.hit?, Rule.hit?, h.tryMatch, h.memory]

/-- It declines no more than the first. -/
theorem Restates.declines {r s : Rule ρ κ} (h : r.Restates s) {next : Option Char}
    (hdeclines : s.declines next = true) : r.declines next = true := by
  rw [Rule.declines] at hdeclines ⊢
  rcases h.quickCheck with hkept | hnone
  · rwa [hkept, h.memory] at hdeclines
  · rw [hnone] at hdeclines
    cases hdeclines

/-- It handles the cursor as the first does. -/
theorem Restates.roaming {r s : Rule ρ κ} (h : r.Restates s) (hr : r.Roaming source) :
    s.Roaming source := by
  obtain ⟨marks, hroams, hmarks⟩ := hr
  refine ⟨marks, ?_, ?_⟩
  · rw [Roams, h.tryMatch]
    exact hroams
  · rw [h.memory]
    exact hmarks

end Rule

namespace Lexer

/-! ## Rounds with one match at most -/

/-- A rule declines only where it has no match to offer, and where two rules offer one it is the
    same. -/
structure Exclusive (rs : List (Rule ρ κ)) : Prop where
  honest : ∀ r ∈ rs, ∀ c, r.declines c.peek = true → r.hit? c = none
  alone : ∀ r ∈ rs, ∀ s ∈ rs, ∀ {c hit hit'}, r.hit? c = some hit → s.hit? c = some hit' →
    hit = hit'

/-- The round finds what there is to find. -/
theorem matchApart_eq_some {rs : List (Rule ρ κ)} (h : Exclusive rs) {c : Cursor}
    {hit : Lexeme (Token κ) × Cursor} :
    (matchApart c rs).1 = some hit ↔ ∃ r ∈ rs, r.hit? c = some hit := by
  -- whichever rule is the first to match, no other rule has a match of its own there
  rcases matchApart_cases c rs with
    ⟨tried, w, rest, lexeme, memory, c', hrules, -, -, hmatch, hfirst⟩ | ⟨hfails, hfirst⟩
  · have hw : w ∈ rs := by
      rw [hrules]
      exact List.mem_append_right _ List.mem_cons_self
    have hfound : w.hit? c = some (lexeme, c') := by
      rw [Rule.hit?, hmatch]
      rfl
    rw [hfirst]
    constructor
    · intro heq
      exact ⟨w, hw, hfound.trans heq⟩
    · rintro ⟨r, hr, hhit⟩
      rw [h.alone w hw r hr hfound hhit]
  · rw [hfirst]
    constructor
    · intro heq
      cases heq
    · rintro ⟨r, hr, hhit⟩
      have hnone : r.hit? c = none := by
        rcases hfails r hr with hdeclines | hmiss
        · exact h.honest r hr c hdeclines
        · rw [Rule.hit?, Option.map_eq_none_iff]
          exact hmiss
      rw [hnone] at hhit
      cases hhit

/-- Restated rules are exclusive, too. -/
theorem Exclusive.restated {rs rs' : List (Rule ρ κ)} (h : Exclusive rs)
    (hfrom : ∀ s ∈ rs', ∃ r ∈ rs, r.Restates s) : Exclusive rs' where
  honest := by
    intro s hs c hdeclines
    obtain ⟨r, hr, hrestates⟩ := hfrom s hs
    rw [hrestates.hit?]
    exact h.honest r hr c (hrestates.declines hdeclines)
  alone := by
    intro s hs s' hs' c hit hit' hhit hhit'
    obtain ⟨r, hr, hrestates⟩ := hfrom s hs
    obtain ⟨r', hr', hrestates'⟩ := hfrom s' hs'
    rw [hrestates.hit?] at hhit
    rw [hrestates'.hit?] at hhit'
    exact h.alone r hr r' hr' hhit hhit'

/-- Where all rules are there, restated and in some order, a round finds the same match. -/
theorem matchApart_restated {rs rs' : List (Rule ρ κ)} (h : Exclusive rs)
    (hfrom : ∀ s ∈ rs', ∃ r ∈ rs, r.Restates s) (hall : ∀ r ∈ rs, ∃ s ∈ rs', r.Restates s)
    (c : Cursor) : (matchApart c rs').1 = (matchApart c rs).1 := by
  ext hit
  rw [matchApart_eq_some (h.restated hfrom), matchApart_eq_some h]
  constructor
  · rintro ⟨s, hs, hhit⟩
    obtain ⟨r, hr, hrestates⟩ := hfrom s hs
    exact ⟨r, hr, (hrestates.hit? c).symm.trans hhit⟩
  · rintro ⟨r, hr, hhit⟩
    obtain ⟨s, hs, hrestates⟩ := hall r hr
    exact ⟨s, hs, (hrestates.hit? c).trans hhit⟩

/-! ## Lexers that go the same way -/

/-- The two lexers stand at the same place of the text, their rules find the same matches
    everywhere, and none of these rules leaves the text. -/
structure Alike (source : SourceText) (lx lx' : Lexer ρ κ) : Prop where
  cursor : lx.cursor = lx'.cursor
  atEnd : lx.atEnd = lx'.atEnd
  rules : ∀ c, (matchApart c lx.rules).1 = (matchApart c lx'.rules).1
  inText : lx.InText source (Rule.Roaming source)
  inText' : lx'.InText source (Rule.Roaming source)

/-- Rules without memory are as they were after a round, so the lexers stay alike. -/
theorem Alike.round [Subsingleton ρ] {lx lx' : Lexer ρ κ} (h : Alike source lx lx') :
    (round lx).1 = (round lx').1 ∧ Alike source (round lx).2 (round lx').2 := by
  have hrules : ∀ c, (matchApart c (Lexer.round lx).2.rules).1 =
      (matchApart c (Lexer.round lx').2.rules).1 := by
    intro c
    rw [rules_round, rules_round]
    -- so the tries of one cursor after the other come to those of each rule for itself
    exact h.rules c
  have hin := preserves_round Rule.confines_roaming lx h.inText
  have hin' := preserves_round Rule.confines_roaming lx' h.inText'
  have hapart := round_eq_roundApart fun r hr =>
    Rule.confines_roaming.undone (h.inText.rules r hr) h.inText.placed
  have hapart' := round_eq_roundApart fun r hr =>
    Rule.confines_roaming.undone (h.inText'.rules r hr) h.inText'.placed
  have hfound := h.rules lx.cursor
  rw [hapart] at hrules hin ⊢
  rw [hapart'] at hrules hin' ⊢
  rw [roundApart] at hrules hin hin' ⊢
  rw [roundApart, ← h.cursor] at hrules ⊢
  rw [← h.cursor] at hin'
  rcases hfirst : matchApart lx.cursor lx.rules with ⟨found, rules⟩
  rcases hfirst' : matchApart lx.cursor lx'.rules with ⟨found', rules'⟩
  rw [hfirst, hfirst'] at hfound
  obtain rfl : found = found' := hfound
  rw [hfirst] at hrules hin
  rw [hfirst'] at hrules hin'
  cases found with
  | none => exact ⟨rfl, rfl, h.atEnd, hrules, hin, hin'⟩
  | some hit =>
      dsimp only at hrules hin hin' ⊢
      -- the guard compares the same two offsets on both sides
      split
      · next hstuck =>
          rw [if_pos hstuck] at hrules hin hin'
          rw [if_pos hstuck] at hrules
          exact ⟨rfl, rfl, h.atEnd, hrules, hin, hin'⟩
      · next hmoved =>
          rw [if_neg hmoved] at hrules hin hin'
          rw [if_neg hmoved] at hrules
          exact ⟨rfl, rfl, h.atEnd, hrules, hin, hin'⟩

/-- So the two lexers answer call by call alike, and stay alike. -/
theorem Alike.nextToken [TokenKind κ] [Subsingleton ρ] {lx lx' : Lexer ρ κ}
    (h : Alike source lx lx') (fuel : Nat) : (nextToken fuel lx).1 = (nextToken fuel lx').1 ∧
      Alike source (nextToken fuel lx).2 (nextToken fuel lx').2 := by
  -- on the fuel, with one round on either side
  induction fuel generalizing lx lx' with
  | zero => exact ⟨rfl, h⟩
  | succ fuel ih =>
      have hend : lx.isEof = lx'.isEof := by
        rw [isEof, isEof, h.atEnd, h.cursor]
      cases heof : lx.isEof with
      | true =>
          have htoken : lx.eofToken = lx'.eofToken := by
            rw [eofToken, eofToken, h.cursor]
          rw [nextToken_of_end heof, nextToken_of_end (hend.symm.trans heof), htoken]
          exact ⟨rfl, h⟩
      | false =>
          have heof' := hend.symm.trans heof
          obtain ⟨hanswer, halike⟩ := h.round
          rcases hround : Lexer.round lx with ⟨answer, lx₁⟩
          rcases hround' : Lexer.round lx' with ⟨answer', lx₁'⟩
          rw [hround, hround'] at hanswer halike
          obtain rfl : answer = answer' := hanswer
          match answer with
          | .error e =>
              rw [nextToken_of_error heof hround, nextToken_of_error heof' hround']
              exact ⟨rfl, halike⟩
          | .ok (.token t) =>
              rw [nextToken_of_token heof hround, nextToken_of_token heof' hround']
              exact ⟨rfl, halike⟩
          | .ok .skip =>
              rw [nextToken_of_skip heof hround, nextToken_of_skip heof' hround']
              exact ih halike

end Lexer

/-! ## The rules of the list language -/

/-- A run that is not empty begins with a character of the class. -/
theorem Cursor.peek_of_consumeWhile {p : Char → Bool} {c : Cursor}
    (h : (c.consumeWhile p).1.isEmpty = false) : ∃ ch, c.peek = some ch ∧ p ch = true := by
  have hempty : c.rest.takeWhile p = [] → (c.consumeWhile p).1.isEmpty = true := by
    intro hnone
    rw [consumeWhile_eq, hnone]
    exact beq_iff_eq.mpr (Nat.sub_self c.offset)
  cases hrest : c.rest with
  | nil =>
      rw [hempty (by rw [hrest, List.takeWhile_nil])] at h
      exact nomatch h
  | cons ch rest =>
      cases hch : p ch with
      | true => exact ⟨ch, by rw [peek, hrest]; rfl, hch⟩
      | false =>
          rw [hempty (by rw [hrest, List.takeWhile_cons_of_neg (Bool.eq_false_iff.mp hch)])] at h
          exact nomatch h

namespace ListLang

open Lexer

/-- The rule of which a character begins a match. -/
def taker (ch : Char) : Option (Rule Unit Kind) :=
  if Text.isBlank ch then some blankRule
  else if (Kind.ofPunctuation? ch).isSome then some punctuationRule
  else if ch.isAlpha then some identRule
  else none

theorem taker_of_isBlank {ch : Char} (h : Text.isBlank ch = true) :
    taker ch = some blankRule := if_pos h

theorem taker_of_isSome {ch : Char} (h : (Kind.ofPunctuation? ch).isSome = true) :
    taker ch = some punctuationRule := by
  obtain ⟨kind, hkind⟩ := Option.isSome_iff_exists.mp h
  rw [taker, isBlank_of_mark (ofPunctuation?_eq_some.mp hkind), if_neg Bool.false_ne_true, if_pos h]

theorem taker_of_isAlpha {ch : Char} (h : ch.isAlpha = true) : taker ch = some identRule := by
  have hblank : Text.isBlank ch = false := by
    rw [Bool.eq_false_iff]
    intro hblank
    exact nomatch h.symm.trans (isAlpha_of_isBlank hblank)
  rw [taker, hblank, if_neg Bool.false_ne_true, ofPunctuation?_of_isAlpha h, if_neg nofun, if_pos h]

/-- A rule that matches is the taker of the next character, and has not declined it. -/
theorem taker_of_hit? {r : Rule Unit Kind} (hr : r ∈ rules) {c : Cursor}
    {hit : Lexeme (Token Kind) × Cursor} (h : r.hit? c = some hit) :
    ∃ ch, c.peek = some ch ∧ taker ch = some r ∧ r.declines (some ch) = false := by
  obtain ⟨lexeme, hlexeme, -⟩ := Option.map_eq_some_iff.mp h
  simp only [rules, List.mem_cons, List.not_mem_nil, or_false] at hr
  -- a rule takes nothing unless the next character is of its class
  rcases hr with rfl | rfl | rfl
  · have hrun : (c.consumeWhile Text.isBlank).1.isEmpty = false := by
      rw [Bool.eq_false_iff]
      intro hempty
      rw [blankRule] at hlexeme
      dsimp only at hlexeme
      rw [if_pos hempty] at hlexeme
      cases hlexeme
    obtain ⟨ch, hpeek, hblank⟩ := Cursor.peek_of_consumeWhile hrun
    refine ⟨ch, hpeek, taker_of_isBlank hblank, ?_⟩
    rw [declines_blankRule, hblank]
    rfl
  · rw [punctuationRule] at hlexeme
    dsimp only at hlexeme
    cases hkind : c.peek.bind Kind.ofPunctuation? with
    | none =>
        rw [hkind] at hlexeme
        cases hlexeme
    | some kind =>
        obtain ⟨ch, hpeek, hmark⟩ := Option.bind_eq_some_iff.mp hkind
        have hsome : (Kind.ofPunctuation? ch).isSome = true := by
          rw [hmark]
          rfl
        refine ⟨ch, hpeek, taker_of_isSome hsome, ?_⟩
        rw [declines_punctuationRule, hsome]
        rfl
  · have hrun : (c.consumeWhile Char.isAlpha).1.isEmpty = false := by
      rw [Bool.eq_false_iff]
      intro hempty
      rw [identRule] at hlexeme
      dsimp only at hlexeme
      rw [if_pos hempty] at hlexeme
      cases hlexeme
    obtain ⟨ch, hpeek, hletter⟩ := Cursor.peek_of_consumeWhile hrun
    refine ⟨ch, hpeek, taker_of_isAlpha hletter, ?_⟩
    rw [declines_identRule, hletter]
    rfl

theorem exclusive_rules : Exclusive rules where
  honest := by
    intro r hr c hdeclines
    cases hhit : r.hit? c with
    | none => rfl
    | some hit =>
        obtain ⟨ch, hpeek, -, hasked⟩ := taker_of_hit? hr hhit
        rw [hpeek, hasked] at hdeclines
        exact nomatch hdeclines
  alone := by
    intro r hr s hs c hit hit' hhit hhit'
    obtain ⟨ch, hpeek, htaker, -⟩ := taker_of_hit? hr hhit
    obtain ⟨ch', hpeek', htaker', -⟩ := taker_of_hit? hs hhit'
    obtain rfl : ch = ch' := Option.some.inj (hpeek.symm.trans hpeek')
    obtain rfl : r = s := Option.some.inj (htaker.symm.trans htaker')
    exact Option.some.inj (hhit.symm.trans hhit')

/-! ## Call after call -/

/-- The same holds for them as streams of tokens. -/
theorem alike_next {lx lx' : ListLexer} (h : Alike source lx lx') :
    (TokenStream.next lx).1 = (TokenStream.next lx').1 ∧
      Alike source (TokenStream.next lx).2 (TokenStream.next lx').2 := by
  -- the fuel depends on what is left of the text, and that is the same for both
  have hfuel : ListLexer.fuel lx = ListLexer.fuel lx' := by
    rw [ListLexer.fuel, ListLexer.fuel, h.cursor]
  obtain ⟨hanswer, halike⟩ := h.nextToken (ListLexer.fuel lx)
  show (ListLexer.next lx).1 = (ListLexer.next lx').1 ∧
    Alike source (ListLexer.next lx).2 (ListLexer.next lx').2
  rw [ListLexer.next, ListLexer.next, ← hfuel]
  rcases hnext : Lexer.nextToken (ListLexer.fuel lx) lx with ⟨answer, lx₁⟩
  rcases hnext' : Lexer.nextToken (ListLexer.fuel lx) lx' with ⟨answer', lx₁'⟩
  rw [hnext, hnext'] at hanswer halike
  obtain rfl : answer = answer' := hanswer
  -- a call that has no answer fails at the place of the cursor
  rcases answer with (e | cause | _) | t
  · exact ⟨rfl, halike⟩
  · refine ⟨?_, halike⟩
    dsimp only
    rw [halike.cursor]
  · refine ⟨?_, halike⟩
    dsimp only
    rw [halike.cursor]
  · exact ⟨rfl, halike⟩

/-- It still holds after any number of calls. -/
theorem alike_after {lx lx' : ListLexer} (h : Alike source lx lx') (i : Nat) :
    Alike source (TokenStream.after lx i) (TokenStream.after lx' i) := by
  induction i with
  | zero => exact h
  | succ i ih => exact (alike_next ih).2

/-- The three rules, restated and in any order, make a lexer like that of the language. -/
theorem alike_new {blank punctuation ident : Rule Unit Kind} (hblank : blankRule.Restates blank)
    (hpunctuation : punctuationRule.Restates punctuation) (hident : identRule.Restates ident)
    {declared : List (Rule Unit Kind)} (hdeclared : declared.Perm [blank, punctuation, ident])
    {c : Cursor} (hc : c.Placed source) :
    Alike source (Lexer.new declared c Cursor.isEof) (ListLexer.ofCursor c) := by
  have hfrom : ∀ s ∈ declared, ∃ r ∈ rules, r.Restates s := by
    intro s hs
    have hmem := hdeclared.mem_iff.mp hs
    simp only [List.mem_cons, List.not_mem_nil, or_false] at hmem
    rcases hmem with rfl | rfl | rfl
    · exact ⟨blankRule, by simp [rules], hblank⟩
    · exact ⟨punctuationRule, by simp [rules], hpunctuation⟩
    · exact ⟨identRule, by simp [rules], hident⟩
  have hall : ∀ r ∈ rules, ∃ s ∈ declared, r.Restates s := by
    intro r hr
    simp only [rules, List.mem_cons, List.not_mem_nil, or_false] at hr
    rcases hr with rfl | rfl | rfl
    · exact ⟨blank, hdeclared.mem_iff.mpr (by simp), hblank⟩
    · exact ⟨punctuation, hdeclared.mem_iff.mpr (by simp), hpunctuation⟩
    · exact ⟨ident, hdeclared.mem_iff.mpr (by simp), hident⟩
  have hroaming : ∀ r ∈ rules, r.Roaming source := fun r hr =>
    (keepsTo_of_mem_rules hr []).roaming fun _ hp => absurd hp List.not_mem_nil
  refine ⟨rfl, rfl, ?_, inText_new hc ?_ _, inText_new hc hroaming _⟩
  · have hmem := fun r => (byPriority_perm declared).mem_iff (a := r)
    -- the order of priorities is again an order of the same rules
    refine matchApart_restated exclusive_rules (fun s hs => hfrom s ((hmem s).mp hs)) ?_
    intro r hr
    obtain ⟨s, hs, hrestates⟩ := hall r hr
    exact ⟨s, (hmem s).mpr hs, hrestates⟩
  · intro s hs
    obtain ⟨r, hr, hrestates⟩ := hfrom s hs
    exact hrestates.roaming (hroaming r hr)

/-- **The list rules do not depend on order, priorities or quick checks.**  Declared in any order,
    each with any priority and with its quick check or none, they answer every call on every text as
    the lexer of the language does, and leave the cursor at the same place.  That holds for every
    bound on the rounds of a call.  A rule that declines would not match there. -/
theorem rules_indifferent {blank punctuation ident : Rule Unit Kind}
    (hblank : blankRule.Restates blank) (hpunctuation : punctuationRule.Restates punctuation)
    (hident : identRule.Restates ident) {declared : List (Rule Unit Kind)}
    (hdeclared : declared.Perm [blank, punctuation, ident]) (text : String) :
    (∀ i, let lx := TokenStream.after (Lexer.new declared (.ofText text) Cursor.isEof) i
      let usual := TokenStream.after (ListLexer.ofText text) i
      lx.cursor = usual.cursor ∧ (TokenStream.next lx).1 = (TokenStream.next usual).1 ∧
        ∀ fuel, (Lexer.nextToken fuel lx).1 = (Lexer.nextToken fuel usual).1 ∧
          (Lexer.nextToken fuel lx).2.cursor = (Lexer.nextToken fuel usual).2.cursor) ∧
    ∀ r ∈ rules, ∀ c, r.quickCheck r.memory c.peek = some false →
      (r.tryMatch r.memory c).1 = none := by
  constructor
  · intro i lx usual
    have halike : Alike ⟨0, text.toList⟩ lx usual :=
      alike_after (alike_new hblank hpunctuation hident hdeclared Cursor.placed_ofSource) i
    refine ⟨halike.cursor, (alike_next halike).1, ?_⟩
    intro fuel
    obtain ⟨hanswer, hafter⟩ := halike.nextToken fuel
    exact ⟨hanswer, hafter.cursor⟩
  · intro r hr c hquick
    have hnone := exclusive_rules.honest r hr c (beq_iff_eq.mpr hquick)
    exact Option.map_eq_none_iff.mp hnone

/-- In the reverse order, with the blanks last and two rules without a quick check, a text is cut
    into the same tokens, and the call after them complains about the same character. -/
theorem rules_indifferent_reversed :
    let blank := { blankRule with priority := -3, quickCheck := fun _ _ => none }
    let punctuation := { punctuationRule with priority := 7 }
    let ident := { identRule with priority := 7, quickCheck := fun _ _ => none }
    let start : ListLexer := Lexer.new [ident, punctuation, blank] (.ofText "a ]1") Cursor.isEof
    let usual := ListLexer.ofText "a ]1"
    start.rules = [ident, punctuation, blank] ∧
      (TokenStream.next (TokenStream.after start 2)).1 =
        .error (.invalidCharacter '1' ⟨1, 4, 3⟩) ∧
      (TokenStream.after start 2).cursor = (TokenStream.after usual 2).cursor ∧
      blankRule.quickCheck () (some 'a') = some false ∧
      (blankRule.tryMatch () (.ofText "a")).1 = none := by
  intro blank punctuation ident start usual
  have hdeclared : [ident, punctuation, blank].Perm [blank, punctuation, ident] :=
    List.reverse_perm [blank, punctuation, ident]
  have hblank : blankRule.Restates blank := ⟨rfl, rfl, Or.inr rfl⟩
  have hpunctuation : punctuationRule.Restates punctuation := ⟨rfl, rfl, Or.inl rfl⟩
  have hident : identRule.Restates ident := ⟨rfl, rfl, Or.inr rfl⟩
  obtain ⟨hcalls, hquick⟩ := rules_indifferent hblank hpunctuation hident hdeclared "a ]1"
  obtain ⟨hcursor, hanswer, -⟩ := hcalls 2
  refine ⟨rfl, hanswer.trans rfl, hcursor, rfl, ?_⟩
  exact hquick blankRule (by simp [rules]) (.ofText "a") rfl

end ListLang

end Packrat
