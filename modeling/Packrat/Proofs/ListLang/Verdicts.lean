import Packrat.Proofs.ListLang.Interruption
import Packrat.Proofs.ListLang.Lexing

/-! # The verdict on a text

    A text is a statement if it can be lexed and its kinds can be derived.  Whoever
    asks the recognizer gets to know which: it accepts the statements, and it
    complains about every other text.  The parser follows the tape, and the tape
    knows nothing of a memo table, so the complaint is the same however the parser
    was set up (`settled_verdict`).

    A text is a script for its lexer: what is cut on the way through it, and the
    verdict of the lexer behind that (`Cut.script`). -/

namespace Packrat.ListLang

/-- The text can be lexed, and its kinds make a statement. -/
def IsStatement (text : String) : Prop :=
  ∃ tokens, tokenize text = .ok tokens ∧ Derives .statement (tokens.map Token.kind)

/-- The script ends with the end of the input, and its kinds make a statement. -/
def Complete (script : Script Kind) : Prop :=
  (∃ last, script.ending = .ok last) ∧ Derives .statement script.kinds

section Streams

variable {σ : Type} [TokenStream σ Kind] {script : Script Kind} {stream : σ}

/-- A statement is read through only if the script is complete. -/
theorem Complete.of_spells {u : List Kind} (hu : Derives .statement u)
    (hspell : Spells script.kindAt? 0 (u ++ [.eof])) : Complete script := by
  cases hending : script.ending with
  | ok last =>
      obtain rfl := eq_kinds_of_spells hending hu hspell
      exact ⟨⟨last, hending⟩, hu⟩
  | error e =>
      -- the end of the input would have to be an ordinary token
      have hpre := isPrefix_kinds_of_spells hending hspell
      refine absurd (hpre.subset ?_) script.eof_not_mem_kinds
      exact List.mem_append_right _ List.mem_cons_self

/-- **A verdict is had, and options do not matter to it**: with enough fuel the recognizer accepts
    the complete scripts under all options, and complains of all others in one way. -/
theorem recognize_settled (hs : script.SpokenBy stream) {fuel : Nat}
    (hfuel : fuelFor script.length ≤ fuel) :
    (Complete script ∧ ∀ options, ∃ stats, (recognize fuel options stream).1 = .ok stats) ∨
      (¬ Complete script ∧
        ∃ e, ∀ options, (recognize fuel options stream).1 = .error (.failed e)) := by
  obtain ⟨r, t, -, hjudged, htape, -⟩ := parse_judged hs hfuel {}
  -- the run on the tape is one and the same for all parsers
  have hparse : ∀ options, ∃ p,
      Expr.eval grammar fuel (.call .statement) (Parser.new stream options) = (r, p) := by
    intro options
    obtain ⟨r', t', p, -, htape', hparse, -⟩ := parse_judged hs hfuel options
    obtain ⟨rfl, -⟩ := Prod.mk.inj (htape.symm.trans htape')
    exact ⟨p, hparse⟩
  have hcomplains : ∀ e, r = .error (.failed e) →
      ∀ options, (recognize fuel options stream).1 = .error (.failed e) := by
    rintro e rfl options
    obtain ⟨p, hp⟩ := hparse options
    exact congrArg Prod.fst (recognize_of_error hp)
  cases hjudged with
  | @accepted v u _ hu hspell _ _ =>
      refine Or.inl ⟨.of_spells hu hspell, ?_⟩
      intro options
      obtain ⟨p, hp⟩ := hparse options
      exact ⟨p.stats, congrArg Prod.fst (recognize_of_ok hp)⟩
  | @rejected w k first token _ hblames hfirst hover hlen =>
      refine Or.inr ⟨?_, _, hcomplains _ rfl⟩
      rintro ⟨⟨last, hending⟩, hu⟩
      -- the beginning of a sentence would be viable
      refine absurd ?_ (hblames.dead htape hover hlen)
      rw [← hblames.take_succ_eq hending]
      exact Sentence.viable_take ⟨_, hu, rfl⟩ _
  | starved hbroken =>
      refine Or.inr ⟨?_, _, hcomplains _ rfl⟩
      rintro ⟨⟨last, hending⟩, -⟩
      obtain ⟨_, -, -, -, he⟩ := hbroken
      exact nomatch hending.symm.trans he

end Streams

/-! ## Texts as scripts -/

namespace Cut

variable {source : SourceText} {before ahead final left : List Char} {tokens : List (Token Kind)}

theorem ordinary (h : Cut source before ahead tokens final left) :
    ∀ t ∈ tokens, t.isEof = false := by
  induction h with
  | stop => exact nofun
  | token _ hleads _ ih =>
      intro t ht
      rcases List.mem_cons.mp ht with rfl | ht
      · exact isEof_tokenOf hleads
      · exact ih t ht

/-- What the lexer says on the way. -/
def script (h : Cut source before ahead tokens final left) : Script Kind where
  tokens := tokens
  ending := verdict source final left
  ordinary := h.ordinary
  final := by
    intro t ht
    cases left with
    | nil =>
        cases ht
        rfl
    | cons c left => exact nomatch ht

theorem spokenBy (h : Cut source before ahead tokens final left) (done : Bool) :
    h.script.SpokenBy (lexerAt source before ahead done) := by
  intro i _
  refine (answer_cut h i).trans ?_
  rcases Nat.lt_or_ge i tokens.length with hlt | hge
  · have hanswer : h.script.answer i = .ok tokens[i] := Script.answer_of_lt hlt
    rw [hanswer, List.getElem?_eq_getElem hlt]
    rfl
  · have hanswer : h.script.answer i = verdict source final left := Script.answer_of_le hge
    rw [hanswer, List.getElem?_eq_none hge]
    rfl

end Cut

/-- A text is a statement if and only if its script is complete. -/
theorem isStatement_iff {text : String} {final left : List Char} {tokens : List (Token Kind)}
    (h : Cut ⟨0, text.toList⟩ [] text.toList tokens final left) :
    IsStatement text ↔ Complete h.script := by
  have htokenize := tokenize_cut h
  cases left with
  | nil =>
      constructor
      · rintro ⟨tokens', hok, hu⟩
        obtain rfl : tokens' = tokens := Except.ok.inj (hok.symm.trans htokenize)
        exact ⟨⟨_, rfl⟩, hu⟩
      · rintro ⟨-, hu⟩
        exact ⟨tokens, htokenize, hu⟩
  | cons c left =>
      constructor
      · rintro ⟨tokens', hok, -⟩
        exact nomatch hok.symm.trans htokenize
      · rintro ⟨⟨last, hending⟩, -⟩
        exact nomatch hending

/-- **The verdict on a text**: under all options that there is room for, a statement is accepted,
    and any other text is complained about, in the same words. -/
theorem settled_verdict (text : String) :
    (IsStatement text ∧ ∀ options, Window.Fits tokenBytes options.capacity →
        ∃ stats, recognizeText options text = .ok stats) ∨
      (¬ IsStatement text ∧ ∃ e, ∀ options, Window.Fits tokenBytes options.capacity →
        recognizeText options text = .error (.failed e)) := by
  obtain ⟨tokens, final, left, hcut⟩ := exists_cut ⟨0, text.toList⟩ [] text.toList
  have hspoken := hcut.spokenBy false
  rw [← ofText_eq] at hspoken
  have hfuel : fuelFor hcut.script.length ≤ fuelFor text.length := by
    have hlength : tokens.length + left.length ≤ text.toList.length := hcut.length_le
    rw [String.length_toList] at hlength
    show 16 * (tokens.length + 2) ≤ 16 * (text.length + 2)
    omega
  have hroom : ∀ options, Window.Fits tokenBytes options.capacity →
      recognizeText options text =
        (recognize (fuelFor text.length) options (ListLexer.ofText text)).1 :=
    fun options hfits => congrArg Prod.fst (recognizeWith_of_fits hfits)
  rw [isStatement_iff hcut]
  rcases recognize_settled hspoken hfuel with ⟨hcomplete, haccepts⟩ | ⟨hnot, e, hcomplains⟩
  · exact Or.inl ⟨hcomplete, fun options hfits => hroom options hfits ▸ haccepts options⟩
  · exact Or.inr ⟨hnot, e, fun options hfits => hroom options hfits ▸ hcomplains options⟩

end Packrat.ListLang
