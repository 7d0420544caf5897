import Packrat.Proofs.ListLang.Recognition

/-! # Streams that break off

    When a stream ends with a lexical error instead of the end of the input, two
    complaints compete: the lexical error, and one about a token that was read
    before it.  Which of them is made depends on the tokens alone.  As long as they
    can be completed to a sentence, the recognizer wants to see the next token and
    so runs into the error; as soon as they cannot, it stops at the token that makes
    a sentence impossible, and the call that would fail is not made. -/

namespace Packrat.ListLang

variable {σ : Type} [TokenStream σ Kind] {script : Script Kind} {stream : σ}

/-- What is viable has viable beginnings only. -/
theorem Viable.of_isPrefix {w w' : List Kind} (h : Viable w') (hpre : w <+: w') : Viable w := by
  obtain ⟨v, rfl⟩ := hpre
  obtain ⟨z, hz⟩ := h
  refine ⟨v ++ z, ?_⟩
  rw [← List.append_assoc]
  exact hz

/-- What is read from a script that breaks off is a beginning of its kinds. -/
theorem isPrefix_kinds_of_spells {e : LexError} (hending : script.ending = .error e)
    {w : List Kind} (hspell : Spells script.kindAt? 0 w) : w <+: script.kinds := by
  refine List.prefix_iff_getElem?.mpr ?_
  intro i hi
  have hkind := hspell.getElem? hi
  rw [Nat.zero_add, Script.kindAt?_of_broken hending, List.getElem?_eq_getElem hi] at hkind
  exact hkind

/-- A script that breaks off while a sentence is still possible has said nothing but a viable
    sequence. -/
theorem BreaksOff.viable {e e' : LexError} (h : BreaksOff script e)
    (hending : script.ending = .error e') : e = e' ∧ Viable script.kinds := by
  obtain ⟨w, hviable, hspell, hle, he⟩ := h
  have hpre := isPrefix_kinds_of_spells hending hspell
  have hlen : script.kinds.length ≤ w.length := by
    rw [show script.kinds.length = script.length from List.length_map _]
    exact hle
  rw [hpre.eq_of_length_le hlen] at hviable
  exact ⟨Except.error.inj (he.symm.trans hending), hviable⟩

/-- **Lexical or syntactical**: over a stream of ordinary tokens with a lexical error behind them
    the recognizer hands on that error if and only if the kinds can be completed to a sentence.
    Otherwise its complaint names, inside, the token at the position `p` where a sentence becomes
    impossible; the stream has been asked for the tokens up to that one, so the call that fails is
    never made. -/
theorem recognize_interrupted (hs : script.SpokenBy stream) {e : LexError}
    (hending : script.ending = .error e) {fuel : Nat} (hfuel : fuelFor script.length ≤ fuel)
    (options : Options) :
    let o := recognize fuel options (Metered.new stream)
    (o.1 = .error (.failed (.lexical e)) ↔ Viable script.kinds) ∧
      (¬ Viable script.kinds → ∃ p k first token, p < script.length ∧
        script.tokens[0]? = some first ∧ script.tokens[p]? = some token ∧
        o.1 = .error (.failed (.exhausted "statement"
          ⟨first.kind, first.text.text, 0, first.position⟩
          (some (.mismatch k ⟨token.kind, token.text.text, p, token.position⟩)))) ∧
        Viable (script.kinds.take p) ∧ ¬ Viable (script.kinds.take (p + 1)) ∧
        o.2.window.stream.calls = p + 1) := by
  intro o
  obtain ⟨r, t, q, hjudged, htape, hparse, hmirrors⟩ := parse_judged hs.metered hfuel options
  cases hjudged with
  | @accepted v u _ _ hspell _ _ =>
      -- the end of the input would have to be an ordinary token
      have hpre := isPrefix_kinds_of_spells hending hspell
      refine absurd (hpre.subset ?_) script.eof_not_mem_kinds
      exact List.mem_append_right _ List.mem_cons_self
  | @starved e' _ hbroken =>
      have ho : o = (.error _, q) := recognize_of_error hparse
      obtain ⟨rfl, hviable⟩ := hbroken.viable hending
      rw [ho]
      exact ⟨⟨fun _ => hviable, fun _ => rfl⟩, fun hnot => absurd hviable hnot⟩
  | @rejected w k first token _ hblames hfirst hover hlen =>
      have ho : o = (.error _, q) := recognize_of_error hparse
      have hdead := hblames.dead htape hover hlen
      have hpre := isPrefix_kinds_of_spells hending hblames.spells
      have hpre' := isPrefix_kinds_of_spells hending hblames.spells_token
      have hlen' : (w ++ [token.kind]).length = w.length + 1 := List.length_append
      have hnot : ¬ Viable script.kinds := fun hviable => hdead (hviable.of_isPrefix hpre')
      constructor
      · constructor
        · intro hlexical
          rw [ho] at hlexical
          exact nomatch hlexical
        · intro hviable
          exact absurd hviable hnot
      · intro _
        have hlt : w.length < script.length := by
          have hle := hpre'.length_le
          rw [hlen', show script.kinds.length = script.length from List.length_map _] at hle
          exact hle
        refine ⟨w.length, k, first, token, hlt, Script.getElem?_of_answer hending hfirst,
          Script.getElem?_of_answer hending hblames.answer, ?_, ?_, ?_, ?_⟩
        · rw [ho]
          rfl
        · rw [← List.prefix_iff_eq_take.mp hpre]
          exact hblames.fits.of_isPrefix (List.prefix_append _ _)
        · rw [← hlen', ← List.prefix_iff_eq_take.mp hpre']
          exact hdead
        · -- the stream has been asked once for every token on the tape
          have hpulled : t.pulled = w.length + 1 := by
            rw [hover.pulled, hlen]
            omega
          rw [ho, hmirrors.window.stream, hover.stream, hpulled, Metered.after_new]

/-- Inside an open list the recognizer runs into the digit; behind a closing bracket that opens
    nothing it never gets there: that bracket is the one token it asks for. -/
theorem recognize_interrupted_digit :
    (recognize (fuelFor 2) ⟨true, 16⟩ (Metered.new (ListLexer.ofText "[a1"))).1 =
        .error (.failed (.lexical (.invalidCharacter '1' ⟨1, 3, 2⟩))) ∧
      (recognize (fuelFor 2) ⟨true, 16⟩ (Metered.new (ListLexer.ofText "]1"))).1 =
        .error (.failed (.exhausted "statement" ⟨.rbrack, "]", 0, ⟨1, 1, 0⟩⟩
          (some (.mismatch .lbrack ⟨.rbrack, "]", 0, ⟨1, 1, 0⟩⟩)))) ∧
      ¬ Viable [.rbrack] ∧
      (recognize (fuelFor 2) ⟨true, 16⟩ (Metered.new (ListLexer.ofText "]1"))
        ).2.window.stream.calls = 1 := by
  let cut (text : String) (kind : Kind) (start stop : Nat) : Token Kind :=
    ⟨kind, ⟨⟨0, text.toList⟩, start, stop⟩, ⟨1, start + 1, start⟩⟩
  let opened : Script Kind :=
    { tokens := [cut "[a1" .lbrack 0 1, cut "[a1" .ident 1 2]
      ending := .error (.invalidCharacter '1' ⟨1, 3, 2⟩)
      ordinary := by decide
      final := fun _ h => nomatch h }
  let closed : Script Kind :=
    { tokens := [cut "]1" .rbrack 0 1]
      ending := .error (.invalidCharacter '1' ⟨1, 2, 1⟩)
      ordinary := by decide
      final := fun _ h => nomatch h }
  have hopened : opened.SpokenBy (ListLexer.ofText "[a1") := by decide +kernel
  have hclosed : closed.SpokenBy (ListLexer.ofText "]1") := by decide +kernel
  have hviable : Viable opened.kinds :=
    ⟨[.rbrack, .eof], [.lbrack, .ident, .rbrack], .ofList (.list (.last .ident)), rfl⟩
  have hnot : ¬ Viable closed.kinds := by
    rintro ⟨z, u, hu, heq⟩
    -- nothing that can be derived starts with a closing bracket
    obtain ⟨k, v, rfl, hk⟩ := hu.head
    obtain ⟨rfl, -⟩ := List.cons.inj heq
    rcases hk with hk | ⟨hk, -⟩
    · exact nomatch hk
    · exact nomatch hk
  constructor
  · exact (recognize_interrupted hopened rfl (Nat.le_refl (fuelFor 2)) ⟨true, 16⟩).1.mpr hviable
  · have hfuel : fuelFor closed.length ≤ fuelFor 2 := by decide
    obtain ⟨p, k, first, token, hlt, -, -, -, -, hdead, hcalls⟩ :=
      (recognize_interrupted hclosed rfl hfuel ⟨true, 16⟩).2 hnot
    obtain rfl : p = 0 := Nat.lt_one_iff.mp hlt
    exact ⟨by decide +kernel, hdead, hcalls⟩

end Packrat.ListLang
