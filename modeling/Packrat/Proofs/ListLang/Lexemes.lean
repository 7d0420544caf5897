import Packrat.ListLang.Kind
import Packrat.Proofs.Places
import Packrat.Text.Blank

/-! # The words of the list language

    What the tokens of a text are can be said without a lexer: a punctuation mark is
    one, and so is a run of letters that goes on neither to the left nor to the
    right (`Written`).  `Cut` describes the way through a text from left to right,
    one gap and one word at a time, up to the end or to a character that belongs to
    no class.

    The two views are brought together here.  On the way every word is met, because
    it begins with a character that is not blank and such a character is passed over
    only as part of a word; and two words that share a character are the same word. -/

namespace Packrat.ListLang

/-- The punctuation marks with their kinds. -/
def marks : List (Char × Kind) :=
  [('[', .lbrack), (']', .rbrack), (',', .comma), ('=', .equals)]

/-- The character may stand in a text of the list language. -/
def IsAdmissible (c : Char) : Prop :=
  Text.isBlank c = true ∨ c.isAlpha = true ∨ ∃ kind, (c, kind) ∈ marks

/-! ## The three classes have nothing in common -/

theorem ofPunctuation?_eq_some {c : Char} {kind : Kind} :
    Kind.ofPunctuation? c = some kind ↔ (c, kind) ∈ marks := by
  constructor
  · intro h
    unfold Kind.ofPunctuation? at h
    split at h
    case h_5 => exact nomatch h
    all_goals
      cases h
      decide
  · have htable : ∀ mark ∈ marks, Kind.ofPunctuation? mark.1 = some mark.2 := by decide
    exact htable (c, kind)

theorem isBlank_of_mark {c : Char} {kind : Kind} (h : (c, kind) ∈ marks) :
    Text.isBlank c = false := by
  have htable : ∀ mark ∈ marks, Text.isBlank mark.1 = false := by decide
  exact htable (c, kind) h

theorem isAlpha_of_mark {c : Char} {kind : Kind} (h : (c, kind) ∈ marks) :
    c.isAlpha = false := by
  have htable : ∀ mark ∈ marks, mark.1.isAlpha = false := by decide
  exact htable (c, kind) h

/-- A letter has one of 52 code points. -/
theorem toNat_of_isAlpha {c : Char} (h : c.isAlpha = true) :
    (65 ≤ c.toNat ∧ c.toNat ≤ 90) ∨ (97 ≤ c.toNat ∧ c.toNat ≤ 122) := by
  rcases (Bool.or_eq_true c.isUpper c.isLower).mp h with hupper | hlower
  · obtain ⟨hge, hle⟩ : 'A'.val ≤ c.val ∧ c.val ≤ 'Z'.val := of_decide_eq_true hupper
    exact Or.inl ⟨hge, hle⟩
  · obtain ⟨hge, hle⟩ := (Bool.and_eq_true _ _).mp hlower
    exact Or.inr ⟨of_decide_eq_true hge, of_decide_eq_true hle⟩

theorem isAlpha_of_isBlank {c : Char} (h : Text.isBlank c = true) : c.isAlpha = false := by
  rw [Bool.eq_false_iff]
  intro hletter
  have hcode := toNat_of_isAlpha hletter
  simp only [Text.isBlank, Bool.or_eq_true, Bool.and_eq_true, decide_eq_true_eq, beq_iff_eq] at h
  omega

/-! ## Words -/

/-- A word of the kind `kind` leads a text: `lexeme` is the word and `after` the rest.  A run of
    letters is a word only as a whole. -/
inductive Leads : (kind : Kind) → (lexeme after : List Char) → Prop
  | mark {c : Char} {kind : Kind} {after : List Char} (hmark : (c, kind) ∈ marks) :
      Leads kind [c] after
  | letters {lexeme after : List Char} (hne : lexeme ≠ [])
      (hletters : ∀ c ∈ lexeme, c.isAlpha = true) (hend : ∀ c ∈ after.head?, c.isAlpha = false) :
      Leads .ident lexeme after

/-- A word stands between `before` and `after`: it leads what follows, and a run of letters does not
    begin earlier. -/
structure Written (before : List Char) (kind : Kind) (lexeme after : List Char) : Prop where
  leads : Leads kind lexeme after
  begins : kind = .ident → ∀ c ∈ before.getLast?, c.isAlpha = false

/-- A word begins with a character that is not blank. -/
theorem Leads.exists_cons {kind : Kind} {lexeme after : List Char} (h : Leads kind lexeme after) :
    ∃ c cs, lexeme = c :: cs ∧ Text.isBlank c = false := by
  cases h with
  | @mark c _ _ hmark => exact ⟨c, [], rfl, isBlank_of_mark hmark⟩
  | letters hne hletters hend =>
      obtain ⟨c, cs, rfl⟩ := List.exists_cons_of_ne_nil hne
      refine ⟨c, cs, rfl, ?_⟩
      cases hblank : Text.isBlank c with
      | false => rfl
      | true =>
          have hletter := hletters c List.mem_cons_self
          exact nomatch hletter.symm.trans (isAlpha_of_isBlank hblank)

theorem Leads.ne_nil {kind : Kind} {lexeme after : List Char} (h : Leads kind lexeme after) :
    lexeme ≠ [] := by
  obtain ⟨c, cs, rfl, -⟩ := h.exists_cons
  exact List.cons_ne_nil c cs

theorem Leads.isAdmissible {kind : Kind} {lexeme after : List Char} (h : Leads kind lexeme after) :
    ∀ c ∈ lexeme, IsAdmissible c := by
  intro c hc
  cases h with
  | mark hmark =>
      rw [List.mem_singleton.mp hc]
      exact Or.inr (Or.inr ⟨kind, hmark⟩)
  | letters hne hletters hend => exact Or.inr (Or.inl (hletters c hc))

/-- An admissible character that is not blank begins a word. -/
theorem exists_leads {c : Char} (h : IsAdmissible c) (hblank : Text.isBlank c = false)
    (cs : List Char) :
    ∃ kind lexeme after, c :: cs = lexeme ++ after ∧ Leads kind lexeme after := by
  rcases h with hb | hletter | ⟨kind, hmark⟩
  · exact nomatch hb.symm.trans hblank
  · obtain ⟨lexeme, after, hcs, hletters, hend⟩ := exists_run Char.isAlpha (c :: cs)
    refine ⟨.ident, lexeme, after, hcs, .letters ?_ hletters hend⟩
    rintro rfl
    have hhead : c ∈ after.head? := by
      rw [← show c :: cs = after from hcs]
      rfl
    exact nomatch hletter.symm.trans (hend c hhead)
  · exact ⟨kind, [c], cs, rfl, .mark hmark⟩

/-- The first character of a word tells which it is. -/
theorem Leads.cases_head {kind : Kind} {c : Char} {cs after : List Char}
    (h : Leads kind (c :: cs) after) :
    ((c, kind) ∈ marks ∧ cs = []) ∨
      (kind = .ident ∧ (∀ d ∈ c :: cs, d.isAlpha = true) ∧
        ∀ d ∈ after.head?, d.isAlpha = false) := by
  cases h with
  | mark hmark => exact Or.inl ⟨hmark, rfl⟩
  | letters _ hletters hend => exact Or.inr ⟨rfl, hletters, hend⟩

/-- From one place on, there is one word. -/
theorem Leads.unique {kind kind' : Kind} {c : Char} {cs cs' after after' : List Char}
    (h : Leads kind (c :: cs) after) (h' : Leads kind' (c :: cs') after')
    (heq : c :: cs ++ after = c :: cs' ++ after') : kind' = kind ∧ cs' = cs := by
  rcases h.cases_head with ⟨hmark, rfl⟩ | ⟨rfl, hletters, hend⟩
  · rcases h'.cases_head with ⟨hmark', rfl⟩ | ⟨-, hletters', -⟩
    · have hkind := ofPunctuation?_eq_some.mpr hmark'
      rw [ofPunctuation?_eq_some.mpr hmark] at hkind
      exact ⟨(Option.some.inj hkind).symm, rfl⟩
    · exact nomatch (hletters' c List.mem_cons_self).symm.trans (isAlpha_of_mark hmark)
  · rcases h'.cases_head with ⟨hmark', rfl⟩ | ⟨rfl, hletters', hend'⟩
    · exact nomatch (hletters c List.mem_cons_self).symm.trans (isAlpha_of_mark hmark')
    · -- both are the longest run of letters
      have hrun := takeWhile_run hletters hend
      rw [heq, takeWhile_run hletters' hend'] at hrun
      exact ⟨rfl, (List.cons.inj hrun).2⟩

/-- Two words that share a character, at which the second begins, are the same. -/
theorem Written.unique {before earlier later after rest after' : List Char} {c : Char}
    {kind kind' : Kind} (h : Written before kind (earlier ++ c :: later) after)
    (h' : Written (before ++ earlier) kind' (c :: rest) after')
    (heq : c :: later ++ after = c :: rest ++ after') :
    earlier = [] ∧ kind' = kind ∧ rest = later := by
  cases earlier with
  | nil => exact ⟨rfl, h.leads.unique h'.leads heq⟩
  | cons d earlier =>
      -- the first word is a run of letters, and the second begins in the middle of it
      rcases h.leads.cases_head with ⟨-, hnil⟩ | ⟨-, hletters, -⟩
      · exact absurd hnil (List.append_ne_nil_of_right_ne_nil _ (List.cons_ne_nil _ _))
      · have hc : c.isAlpha = true :=
          hletters c (List.mem_append_right (d :: earlier) List.mem_cons_self)
        rcases h'.leads.cases_head with ⟨hmark, -⟩ | ⟨hident, -, -⟩
        · exact nomatch hc.symm.trans (isAlpha_of_mark hmark)
        · have hlast : (before ++ d :: earlier).getLast? =
              some ((d :: earlier).getLast (List.cons_ne_nil _ _)) := by
            rw [List.getLast?_append, List.getLast?_eq_some_getLast (List.cons_ne_nil _ _)]
            rfl
          have hmem := List.getLast_mem (List.cons_ne_nil d earlier)
          exact nomatch (hletters _ (List.mem_append_left _ hmem)).symm.trans
            (h'.begins hident _ hlast)

/-! ## Seams between words -/

/-- No run of letters goes on across the place between `before` and `ahead`. -/
def Seam (before ahead : List Char) : Prop :=
  ∀ c ∈ before.getLast?, c.isAlpha = true → ∀ d ∈ ahead.head?, d.isAlpha = false

/-- There is a seam behind a word. -/
theorem Leads.seam {kind : Kind} {lexeme after : List Char} (h : Leads kind lexeme after)
    (before : List Char) : Seam (before ++ lexeme) after := by
  intro c hc hletter
  cases h with
  | mark hmark =>
      rw [List.getLast?_concat] at hc
      rw [← Option.some.inj hc, isAlpha_of_mark hmark] at hletter
      exact nomatch hletter
  | letters _ _ hend => exact hend

/-- A word behind a seam and a gap does not begin earlier. -/
theorem Seam.written {kind : Kind} {before gap lexeme after : List Char}
    (h : Seam before (gap ++ (lexeme ++ after))) (hgap : ∀ c ∈ gap, Text.isBlank c = true)
    (hleads : Leads kind lexeme after) : Written (before ++ gap) kind lexeme after := by
  refine ⟨hleads, ?_⟩
  rintro rfl c hc
  rw [List.getLast?_append] at hc
  cases hlast : gap.getLast? with
  | some d =>
      rw [hlast] at hc
      rw [← Option.some.inj hc]
      exact isAlpha_of_isBlank (hgap d (List.mem_of_getLast? hlast))
  | none =>
      rw [hlast, Option.none_or] at hc
      obtain rfl := List.getLast?_eq_none_iff.mp hlast
      obtain ⟨d, cs, rfl, -⟩ := hleads.exists_cons
      rcases hleads.cases_head with ⟨hmark, -⟩ | ⟨-, hletters, -⟩
      · have htable : ∀ mark ∈ marks, mark.2 ≠ .ident := by decide
        exact absurd rfl (htable _ hmark)
      · cases hletter : c.isAlpha with
        | false => rfl
        | true => exact (hletters d List.mem_cons_self).symm.trans (h c hc hletter d rfl)

/-! ## The way through a text -/

/-- The token for a word behind `before`. -/
def tokenOf (source : SourceText) (before : List Char) (kind : Kind) (lexeme : List Char) :
    Token Kind :=
  ⟨kind, .behind source before lexeme, .behind before⟩

/-- The token `t` is for a word that stands in the source, between `before` and `after`. -/
structure Stands (source : SourceText) (t : Token Kind) (before : List Char) (kind : Kind)
    (lexeme after : List Char) : Prop where
  text : source.chars = before ++ lexeme ++ after
  written : Written before kind lexeme after
  token : t = tokenOf source before kind lexeme

/-- Behind `before`, the text `ahead` is cut into `tokens`, up to the place between `final` and
    `left`: the text ends there, or a character stands there that is not admissible. -/
inductive Cut (source : SourceText) :
    (before ahead : List Char) → (tokens : List (Token Kind)) → (final left : List Char) → Prop
  | stop {before gap left : List Char} (hgap : ∀ c ∈ gap, Text.isBlank c = true)
      (hleft : ∀ c ∈ left.head?, ¬ IsAdmissible c) :
      Cut source before (gap ++ left) [] (before ++ gap) left
  | token {before gap lexeme after final left : List Char} {kind : Kind}
      {tokens : List (Token Kind)} (hgap : ∀ c ∈ gap, Text.isBlank c = true)
      (hleads : Leads kind lexeme after)
      (hcut : Cut source (before ++ gap ++ lexeme) after tokens final left) :
      Cut source before (gap ++ (lexeme ++ after))
        (tokenOf source (before ++ gap) kind lexeme :: tokens) final left

/-- There is a way through every text. -/
theorem exists_cut (source : SourceText) (before ahead : List Char) :
    ∃ tokens final left, Cut source before ahead tokens final left := by
  -- by induction on the length: behind a word there is less text
  induction hlen : ahead.length using Nat.strongRecOn generalizing before ahead with
  | ind n ih =>
      obtain ⟨gap, rest, rfl, hgap, hrest⟩ := exists_run Text.isBlank ahead
      rcases rest with _ | ⟨c, cs⟩
      · exact ⟨[], _, [], .stop hgap (fun _ h => nomatch h)⟩
      · by_cases hc : IsAdmissible c
        · obtain ⟨kind, lexeme, after, heq, hleads⟩ := exists_leads hc (hrest c rfl) cs
          rw [heq] at hlen ⊢
          have hpos := List.length_pos_iff.mpr hleads.ne_nil
          have hlt : after.length < n := by
            rw [← hlen, List.length_append, List.length_append]
            omega
          obtain ⟨tokens, final, left, hcut⟩ := ih _ hlt (before ++ gap ++ lexeme) after rfl
          exact ⟨_, final, left, .token hgap hleads hcut⟩
        · exact ⟨[], _, c :: cs, .stop hgap (by simpa using hc)⟩

namespace Cut

variable {source : SourceText} {before ahead final left : List Char} {tokens : List (Token Kind)}

theorem text_eq (h : Cut source before ahead tokens final left) :
    before ++ ahead = final ++ left := by
  induction h with
  | stop => rw [List.append_assoc]
  | token _ _ _ ih => rw [← ih, List.append_assoc, List.append_assoc]

theorem length_le (h : Cut source before ahead tokens final left) :
    tokens.length + left.length ≤ ahead.length := by
  induction h with
  | stop =>
      rw [List.length_nil, Nat.zero_add, List.length_append]
      exact Nat.le_add_left _ _
  | token _ hleads _ ih =>
      have hpos := List.length_pos_iff.mpr hleads.ne_nil
      rw [List.length_cons, List.length_append, List.length_append]
      omega

/-- It stops at the end or at a character that is not admissible. -/
theorem head_left (h : Cut source before ahead tokens final left) :
    ∀ c ∈ left.head?, ¬ IsAdmissible c := by
  induction h with
  | stop _ hleft => exact hleft
  | token _ _ _ ih => exact ih

/-- Everything passed over is admissible. -/
theorem isAdmissible (h : Cut source before ahead tokens final left) :
    ∃ passed, final = before ++ passed ∧ ∀ c ∈ passed, IsAdmissible c := by
  induction h with
  | @stop _ gap _ hgap _ => exact ⟨gap, rfl, fun c hc => Or.inl (hgap c hc)⟩
  | @token _ gap lexeme _ _ _ _ _ hgap hleads _ ih =>
      obtain ⟨passed, rfl, hpassed⟩ := ih
      refine ⟨gap ++ (lexeme ++ passed), by rw [List.append_assoc, List.append_assoc], ?_⟩
      intro c hc
      rcases List.mem_append.mp hc with hc | hc
      · exact Or.inl (hgap c hc)
      · rcases List.mem_append.mp hc with hc | hc
        · exact hleads.isAdmissible c hc
        · exact hpassed c hc

/-- The slices follow one another. -/
theorem ordered (h : Cut source before ahead tokens final left) :
    (∀ t ∈ tokens, byteLength before ≤ t.text.start ∧ t.text.start < t.text.stop) ∧
      tokens.Pairwise fun t u => t.text.stop ≤ u.text.start := by
  induction h with
  | stop => exact ⟨fun _ h => (nomatch h), List.Pairwise.nil⟩
  | @token before gap lexeme _ _ _ kind tokens _ hleads _ ih =>
      obtain ⟨hbounds, hpairs⟩ := ih
      have hpos := byteLength_pos hleads.ne_nil
      refine ⟨?_, List.pairwise_cons.mpr ⟨?_, hpairs⟩⟩
      · intro t ht
        rcases List.mem_cons.mp ht with rfl | ht
        · show byteLength before ≤ byteLength (before ++ gap) ∧
            byteLength (before ++ gap) < byteLength (before ++ gap) + byteLength lexeme
          rw [byteLength_append]
          omega
        · obtain ⟨hstart, hstop⟩ := hbounds t ht
          rw [byteLength_append, byteLength_append] at hstart
          exact ⟨by omega, hstop⟩
      · intro t ht
        obtain ⟨hstart, -⟩ := hbounds t ht
        rw [byteLength_append] at hstart
        exact hstart

end Cut

/-- A character of a text that falls into two parts stands in one of them. -/
theorem cases_append_eq {first second before after : List Char} {c : Char}
    (h : first ++ second = before ++ c :: after) :
    (∃ rest, first = before ++ c :: rest ∧ after = rest ++ second) ∨
      ∃ rest, before = first ++ rest ∧ second = rest ++ c :: after := by
  rcases List.append_eq_append_iff.mp h with ⟨rest, hbefore, hsecond⟩ | ⟨rest, hfirst, hafter⟩
  · exact Or.inr ⟨rest, hbefore, hsecond⟩
  · cases rest with
    | nil => exact Or.inr ⟨[], by rw [hfirst, List.append_nil, List.append_nil], hafter.symm⟩
    | cons d rest =>
        obtain ⟨rfl, rfl⟩ := List.cons.inj hafter
        exact Or.inl ⟨rest, hfirst, rfl⟩

namespace Cut

variable {source : SourceText} {before ahead final left : List Char} {tokens : List (Token Kind)}

/-- Every token on the way is for a word of the text. -/
theorem stands (h : Cut source before ahead tokens final left)
    (htext : source.chars = before ++ ahead) (hseam : Seam before ahead) :
    ∀ t ∈ tokens, ∃ before kind lexeme after, Stands source t before kind lexeme after := by
  induction h with
  | stop => exact fun _ h => nomatch h
  | token hgap hleads _ ih =>
      rw [← List.append_assoc, ← List.append_assoc] at htext
      intro t ht
      rcases List.mem_cons.mp ht with rfl | ht
      · exact ⟨_, _, _, _, htext, hseam.written hgap hleads, rfl⟩
      · exact ih htext (hleads.seam _) t ht

/-- When the way leads to the end, every character that is not blank belongs to a word of one of the
    tokens. -/
theorem covers (h : Cut source before ahead tokens final left) (hleft : left = [])
    (htext : source.chars = before ++ ahead) (hseam : Seam before ahead)
    {behind rest : List Char} {c : Char} (hplace : ahead = behind ++ c :: rest)
    (hc : Text.isBlank c = false) :
    ∃ t ∈ tokens, ∃ start kind earlier later after,
      Stands source t start kind (earlier ++ c :: later) after ∧
        before ++ behind = start ++ earlier := by
  induction h generalizing behind with
  | @stop _ gap _ hgap _ =>
      rw [hleft, List.append_nil] at hplace
      have hmem : c ∈ gap := by
        rw [hplace]
        exact List.mem_append_right _ List.mem_cons_self
      exact nomatch (hgap c hmem).symm.trans hc
  | @token before gap lexeme after _ _ kind _ hgap hleads _ ih =>
      have htext' := htext
      rw [← List.append_assoc, ← List.append_assoc] at htext'
      rcases cases_append_eq hplace with ⟨later, hin, -⟩ | ⟨behind', rfl, hplace'⟩
      · -- in the gap
        have hmem : c ∈ gap := by
          rw [hin]
          exact List.mem_append_right _ List.mem_cons_self
        exact nomatch (hgap c hmem).symm.trans hc
      · rcases cases_append_eq hplace' with ⟨later, rfl, -⟩ | ⟨behind'', rfl, hplace''⟩
        · -- in the word behind the gap
          exact ⟨_, List.mem_cons_self, before ++ gap, kind, behind', later, after,
            ⟨htext', hseam.written hgap hleads, rfl⟩, (List.append_assoc _ _ _).symm⟩
        · obtain ⟨t, ht, start, kind', earlier, later, after', hstands, hstart⟩ :=
            ih hleft htext' (hleads.seam _) hplace''
          refine ⟨t, List.mem_cons_of_mem _ ht, start, kind', earlier, later, after', hstands, ?_⟩
          rw [← hstart, List.append_assoc, List.append_assoc]

/-- Hence the tokens on the way to the end are those for the words of the text. -/
theorem mem_iff (h : Cut source [] source.chars tokens final []) (t : Token Kind) :
    t ∈ tokens ↔ ∃ before kind lexeme after, Stands source t before kind lexeme after := by
  have hseam : Seam [] source.chars := fun _ h => nomatch h
  constructor
  · exact h.stands rfl hseam t
  · rintro ⟨before, kind, lexeme, after, hstands⟩
    obtain ⟨c, cs, rfl, hc⟩ := hstands.written.leads.exists_cons
    have hplace : source.chars = before ++ c :: (cs ++ after) := by
      rw [hstands.text, List.append_assoc]
      rfl
    obtain ⟨t', ht', start, kind', earlier, later, after', hstands', rfl⟩ :=
      h.covers rfl rfl hseam hplace hc
    have hsame : c :: later ++ after' = c :: cs ++ after := by
      have htext := hstands'.text.symm.trans hstands.text
      rw [← List.append_assoc start, List.append_assoc _ _ after',
        List.append_assoc _ _ after] at htext
      exact List.append_cancel_left htext
    obtain ⟨rfl, rfl, rfl⟩ := hstands'.written.unique hstands.written hsame
    rw [hstands.token, List.append_nil]
    exact hstands'.token ▸ ht'

/-- Everything outside the slices is blank. -/
theorem blank_outside (h : Cut source [] source.chars tokens final [])
    {behind rest : List Char} {c : Char} (hplace : source.chars = behind ++ c :: rest)
    (hc : Text.isBlank c = false) :
    ∃ t ∈ tokens, t.text.start ≤ byteLength behind ∧ byteLength behind < t.text.stop := by
  obtain ⟨t, ht, start, kind, earlier, later, after, hstands, rfl⟩ :=
    h.covers rfl rfl (fun _ h => nomatch h) hplace hc
  have hpos := byteLength_pos (List.cons_ne_nil c later)
  refine ⟨t, ht, ?_⟩
  rw [hstands.token]
  show byteLength start ≤ byteLength (start ++ earlier) ∧
    byteLength (start ++ earlier) < byteLength start + byteLength (earlier ++ c :: later)
  rw [byteLength_append, byteLength_append]
  omega

/-- Gaps and words take turns, and put together they are the text. -/
theorem spread (h : Cut source before ahead tokens final left) (hleft : left = [])
    (htext : source.chars = before ++ ahead) :
    ∃ gaps last, gaps.length = tokens.length ∧
      (∀ gap ∈ last :: gaps, ∀ c ∈ gap, Text.isBlank c = true) ∧
      ahead = (List.zipWith (fun gap t => gap ++ t.text.chars) gaps tokens).flatten ++ last := by
  induction h with
  | @stop _ gap _ hgap _ =>
      refine ⟨[], gap, rfl, ?_, ?_⟩
      · intro gap' hmem
        rw [List.mem_singleton.mp hmem]
        exact hgap
      · rw [hleft, List.append_nil]
        rfl
  | @token before gap lexeme after _ _ kind tokens hgap _ _ ih =>
      rw [← List.append_assoc, ← List.append_assoc] at htext
      obtain ⟨gaps, last, hlen, hblank, hafter⟩ := ih hleft htext
      refine ⟨gap :: gaps, last, congrArg (· + 1) hlen, ?_, ?_⟩
      · intro gap' hmem
        rcases List.mem_cons.mp hmem with rfl | hmem
        · exact hblank _ List.mem_cons_self
        · rcases List.mem_cons.mp hmem with rfl | hmem
          · exact hgap
          · exact hblank gap' (List.mem_cons_of_mem _ hmem)
      · have hword : (tokenOf source (before ++ gap) kind lexeme).text.chars = lexeme :=
          Slice.chars_behind htext
        rw [List.zipWith_cons_cons, List.flatten_cons, hword, List.append_assoc, List.append_assoc,
          ← hafter]

end Cut

end Packrat.ListLang
