import Mathlib.Data.List.Forall2
import Packrat.CommandLine
import Packrat.Proofs.ListLang.Verdicts

/-! # What the command line reports

    The arguments are read one by one, and what they ask for together is what they
    say as a list: the inputs are the arguments that are no flags, in order, and of
    a flag only its presence counts (`Request.ofArgs_eq`).  Flags can therefore
    stand anywhere and be repeated.

    Each input has a report of its own, whatever is said of the others, and the
    status is the conjunction of the verdicts (`Reported`).  The memo table is seen
    nowhere but in the line for the work done (`report_alike`). -/

namespace Packrat.CommandLine

open ListLang

/-! ## Arguments -/

/-- The flags that are known. -/
def flags : List String := ["--no-memo", "--stats", "--tokens"]

/-- The argument looks like a flag but is none that is known. -/
def IsUnknown (arg : String) : Prop := arg ∉ flags ∧ ['-', '-'] <+: arg.toList

instance : DecidablePred IsUnknown := fun arg =>
  inferInstanceAs (Decidable (arg ∉ flags ∧ ['-', '-'] <+: arg.toList))

/-- The arguments that are no flags, in order. -/
def operands (args : List String) : List String := args.filter fun arg => arg ∉ flags

/-- Arguments that follow each other have operands that follow each other. -/
theorem operands_append (args args' : List String) :
    operands (args ++ args') = operands args ++ operands args' := List.filter_append _ _

namespace Request

/-- What is asked for when `args` are taken into account as well. -/
def after (request : Request) (args : List String) : Request where
  options := { request.options with
    memoize := request.options.memoize && !args.contains "--no-memo" }
  stats := request.stats || args.contains "--stats"
  tokens := request.tokens || args.contains "--tokens"
  inputs := request.inputs ++ operands args

/-- Nothing more is asked for by no arguments. -/
theorem after_nil (request : Request) : request.after [] = request := by
  simp [after, operands]

/-- Arguments can be taken into account in portions. -/
theorem after_append (request : Request) (args args' : List String) :
    request.after (args ++ args') = (request.after args).after args' := by
  simp [after, operands_append, Bool.and_assoc, Bool.or_assoc]

/-- One argument is refused, or taken into account as a list of one. -/
theorem add_eq (request : Request) (arg : String) :
    request.add arg = if IsUnknown arg then .error arg else .ok (request.after [arg]) := by
  by_cases hknown : arg ∈ flags
  · rw [if_neg fun h => h.1 hknown]
    simp only [flags, List.mem_cons, List.not_mem_nil, or_false] at hknown
    rcases hknown with rfl | rfl | rfl
    · simp [add, after, operands, flags]
    · simp [add, after, operands, flags]
    · simp [add, after, operands, flags]
  · have hothers := hknown
    simp only [flags, List.mem_cons, List.not_mem_nil, or_false, not_or] at hothers
    obtain ⟨hmemo, hstats, htokens⟩ := hothers
    have hafter : request.after [arg] = { request with inputs := request.inputs ++ [arg] } := by
      simp [after, operands, flags, hmemo, hstats, htokens, Ne.symm hmemo, Ne.symm hstats,
        Ne.symm htokens]
    have hadd : request.add arg =
        if ['-', '-'].isPrefixOf arg.toList then .error arg else .ok (request.after [arg]) := by
      rw [add, if_neg hmemo, if_neg hstats, if_neg htokens, hafter]
    rw [hadd]
    by_cases hdashes : ['-', '-'] <+: arg.toList
    · rw [if_pos (List.isPrefixOf_iff_prefix.mpr hdashes), if_pos ⟨hknown, hdashes⟩]
    · rw [if_neg fun h => hdashes (List.isPrefixOf_iff_prefix.mp h), if_neg fun h => hdashes h.2]

/-- The arguments are read as a whole, up to the first unknown flag. -/
theorem foldlM_add (args : List String) (request : Request) :
    args.foldlM add request = match (operands args).find? (IsUnknown ·) with
      | some flag => .error flag
      | none => .ok (request.after args) := by
  induction args generalizing request with
  | nil => rw [List.foldlM_nil, after_nil]; rfl
  | cons arg args ih =>
      have hoperands : operands (arg :: args) = operands [arg] ++ operands args :=
        operands_append [arg] args
      rw [List.foldlM_cons, add_eq, hoperands, List.find?_append]
      by_cases hunknown : IsUnknown arg
      · have hfound : (operands [arg]).find? (IsUnknown ·) = some arg := by
          have hkept : operands [arg] = [arg] :=
            List.filter_cons_of_pos (decide_eq_true hunknown.1)
          rw [hkept]
          exact List.find?_cons_of_pos (decide_eq_true hunknown)
        rw [if_pos hunknown, hfound]
        rfl
      · have hnone : (operands [arg]).find? (IsUnknown ·) = none := by
          refine List.find?_eq_none.mpr ?_
          intro other hother
          obtain rfl : other = arg := List.mem_singleton.mp (List.mem_filter.mp hother).1
          exact fun h => hunknown (of_decide_eq_true h)
        rw [if_neg hunknown, hnone, Option.none_or]
        exact (ih (request.after [arg])).trans (by rw [← after_append]; rfl)

/-- There is room for a parser that is set up as the request asks. -/
def HasRoom (request : Request) : Prop := Window.Fits tokenBytes request.options.capacity

/-- No argument asks for more room than there is by default. -/
theorem hasRoom_after (args : List String) : (after {} args).HasRoom := by
  show 16 * 64 < blockLimit
  decide

/-- The request says what the arguments say together, unless one of them is unknown. -/
theorem ofArgs_eq (args : List String) :
    ofArgs args = match (operands args).find? (IsUnknown ·) with
      | some flag => .error flag
      | none => .ok (after {} args) := foldlM_add args {}

/-- Only the operands and the presence of each flag count. -/
theorem ofArgs_congr {args args' : List String} (hoperands : operands args = operands args')
    (hflags : ∀ flag ∈ flags, flag ∈ args ↔ flag ∈ args') : ofArgs args = ofArgs args' := by
  have hcontains : ∀ flag ∈ flags, args.contains flag = args'.contains flag := by
    intro flag hflag
    rw [Bool.eq_iff_iff, List.contains_iff_mem, List.contains_iff_mem]
    exact hflags flag hflag
  have hafter : after {} args = after {} args' := by
    rw [after, after, hoperands, hcontains "--no-memo" (by decide), hcontains "--stats" (by decide),
      hcontains "--tokens" (by decide)]
  rw [ofArgs_eq, ofArgs_eq, hoperands, hafter]

end Request

/-! ## Lines -/

/-- The line without a carriage return at its end. -/
def dropReturn (line : List Char) : List Char :=
  if line.getLast? = some '\r' then line.dropLast else line

/-- The lines of a text: each ends with a line feed, before which a carriage return does not count,
    and the last one may end with the text. -/
inductive LinesOf : List Char → List String → Prop where
  | none : LinesOf [] []
  | last {line : List Char} : line ≠ [] → '\n' ∉ line → LinesOf line [String.ofList line]
  | line {line rest : List Char} {lines : List String} : '\n' ∉ line → LinesOf rest lines →
      LinesOf (line ++ '\n' :: rest) (String.ofList (dropReturn line) :: lines)

/-- Read backwards, a carriage return at the end of a line is its first character. -/
theorem dropReturn_reverse (line : List Char) :
    dropReturn line.reverse = List.reverse (match line with
      | '\r' :: rest => rest
      | _ => line) := by
  rw [dropReturn, List.getLast?_reverse]
  cases line with
  | nil => rfl
  | cons c rest =>
      by_cases hc : c = '\r'
      · subst hc
        simp
      · simp [hc]

/-- A line feed ends the line that has been collected. -/
theorem splitLines_lineFeed (line ahead : List Char) :
    splitLines line ('\n' :: ahead) = dropReturn line.reverse :: splitLines [] ahead := by
  rw [dropReturn_reverse]
  rfl

/-- Any other character is collected. -/
theorem splitLines_of_ne {c : Char} (h : c ≠ '\n') (line ahead : List Char) :
    splitLines line (c :: ahead) = splitLines (c :: line) ahead := by
  show (if c = '\n' then _ else splitLines (c :: line) ahead) = _
  exact if_neg h

/-- The lines are cut as they should be, whatever has been collected of the first one. -/
theorem splitLines_linesOf {line : List Char} (hline : '\n' ∉ line) (ahead : List Char) :
    LinesOf (line.reverse ++ ahead) ((splitLines line ahead).map String.ofList) := by
  induction ahead generalizing line with
  | nil =>
      rw [splitLines, List.append_nil]
      cases line with
      | nil => exact .none
      | cons c rest =>
          exact .last (by simp) (by rw [List.mem_reverse]; exact hline)
  | cons c ahead ih =>
      by_cases hc : c = '\n'
      · subst hc
        rw [splitLines_lineFeed, List.map_cons]
        exact .line (by rw [List.mem_reverse]; exact hline) (ih List.not_mem_nil)
      · rw [splitLines_of_ne hc]
        have hmore : LinesOf ((c :: line).reverse ++ ahead) _ := ih (by
          rw [List.mem_cons, not_or]
          exact ⟨Ne.symm hc, hline⟩)
        rw [List.reverse_cons, List.append_assoc] at hmore
        exact hmore

/-- In particular from the beginning on. -/
theorem lines_linesOf (text : String) : LinesOf text.toList (lines text) :=
  splitLines_linesOf List.not_mem_nil text.toList

/-! ## Reports -/

/-- Nothing is wrong with the input: where tokens are asked for it can be lexed, and otherwise it is
    a statement. -/
def Passes (tokens : Bool) (input : String) : Prop :=
  match tokens with
  | true => ∃ cut, tokenize input = .ok cut
  | false => IsStatement input

/-- What is reported on an input. -/
inductive Reported (request : Request) (input : String) : Report → Prop where
  | accept {work : Stats} : request.tokens = false → IsStatement input →
      recognizeText request.options input = .ok work →
      Reported request input ⟨true, "accept" :: if request.stats then [statsLine work] else []⟩
  | reject {e : ParseError Kind} : request.tokens = false → ¬ IsStatement input →
      recognizeText request.options input = .error (.failed e) →
      Reported request input ⟨false, ["reject: " ++ e.message]⟩
  | lexed {cut : List (Token Kind)} : request.tokens = true → tokenize input = .ok cut →
      Reported request input ⟨true, cut.map tokenLine⟩
  | broken {cut : List (Token Kind)} {final left : List Char} {e : LexError} :
      request.tokens = true → tokenize input = .error e →
      Cut ⟨0, input.toList⟩ [] input.toList cut final left →
      Reported request input ⟨false, cut.map tokenLine ++ ["error: " ++ e.message]⟩

/-- A report says that nothing is wrong exactly when the input passes. -/
theorem Reported.accepted_iff {request : Request} {input : String} {report : Report}
    (h : Reported request input report) :
    report.accepted = true ↔ Passes request.tokens input := by
  cases h with
  | accept htokens hstatement _ =>
      rw [htokens]
      exact ⟨fun _ => hstatement, fun _ => rfl⟩
  | reject htokens hnot _ =>
      rw [htokens]
      exact ⟨fun h => (Bool.false_ne_true h).elim, fun h => absurd h hnot⟩
  | lexed htokens hcut =>
      rw [htokens]
      exact ⟨fun _ => ⟨_, hcut⟩, fun _ => rfl⟩
  | broken htokens herror _ =>
      rw [htokens]
      refine ⟨fun h => (Bool.false_ne_true h).elim, ?_⟩
      rintro ⟨cut, hcut⟩
      cases hcut.symm.trans herror

/-- The tokens are reported up to the first character that is not admissible. -/
theorem reportTokens_reported {request : Request} (h : request.tokens = true) (input : String) :
    Reported request input (reportTokens input) := by
  obtain ⟨cut, final, left, hcut⟩ := exists_cut ⟨0, input.toList⟩ [] input.toList
  have htokenize := tokenize_cut hcut
  obtain ⟨lx, hread⟩ := itemsUpTo_cut hcut (Nat.lt_succ_self _) (Nat.lt_succ_of_le hcut.length_le)
  have hitems : Lexer.items (ListLexer.fuel (ListLexer.ofText input)) (ListLexer.ofText input) =
      (.ok (cut.map .ok ++ complaint final left), lx) := hread
  have hlines : (cut.map Except.ok).map itemLine = cut.map tokenLine := List.map_map
  have hgood : (cut.map (Except.ok (ε := LexError))).all Except.toBool = true := by
    rw [List.all_map]
    exact List.all_eq_true.mpr fun _ _ => rfl
  -- opened by hand: its equation is slow to derive
  delta reportTokens
  dsimp only
  rw [hitems]
  dsimp only
  rw [List.all_append, List.map_append, hlines, hgood]
  cases left with
  | nil =>
      rw [complaint, List.map_nil, List.append_nil]
      exact .lexed h htokenize
  | cons c left => exact .broken h htokenize hcut

/-- The report on an input that is accepted. -/
theorem reportVerdict_of_ok {request : Request} {input : String} {work : Stats}
    (h : recognizeText request.options input = .ok work) :
    reportVerdict request input =
      ⟨true, "accept" :: if request.stats then [statsLine work] else []⟩ := by
  -- opened by hand, like `reportTokens`
  delta reportVerdict
  rw [h]

/-- The report on one that is rejected. -/
theorem reportVerdict_of_failed {request : Request} {input : String} {e : ParseError Kind}
    (h : recognizeText request.options input = .error (.failed e)) :
    reportVerdict request input = ⟨false, ["reject: " ++ e.message]⟩ := by
  -- opened by hand, like `reportTokens`
  delta reportVerdict
  rw [h]

/-- One of the two it is, and it is the right one. -/
theorem reportVerdict_reported {request : Request} (h : request.tokens = false)
    (hroom : request.HasRoom) (input : String) :
    Reported request input (reportVerdict request input) := by
  rcases settled_verdict input with ⟨hstatement, haccepts⟩ | ⟨hnot, e, hcomplains⟩
  · obtain ⟨work, hwork⟩ := haccepts request.options hroom
    rw [reportVerdict_of_ok hwork]
    exact .accept h hstatement hwork
  · rw [reportVerdict_of_failed (hcomplains request.options hroom)]
    exact .reject h hnot (hcomplains request.options hroom)

/-- Where tokens are asked for, they are reported. -/
theorem report_of_tokens {request : Request} (h : request.tokens = true) (input : String) :
    report request input = reportTokens input := if_pos h

/-- Otherwise the verdict is. -/
theorem report_of_verdict {request : Request} (h : request.tokens = false) (input : String) :
    report request input = reportVerdict request input := by
  rw [report, h, if_neg Bool.false_ne_true]

/-- Either way the report says what there is to say. -/
theorem report_reported {request : Request} (hroom : request.HasRoom) (input : String) :
    Reported request input (report request input) := by
  cases h : request.tokens with
  | true =>
      rw [report_of_tokens h]
      exact reportTokens_reported h input
  | false =>
      rw [report_of_verdict h]
      exact reportVerdict_reported h hroom input

/-- The lines are the same, or both tell of the work done. -/
def SameButWork (line line' : String) : Prop :=
  line = line' ∨ ∃ work work', line = statsLine work ∧ line' = statsLine work'

/-- Lines are as they are. -/
theorem sameButWork_refl (lines : List String) : List.Forall₂ SameButWork lines lines :=
  List.forall₂_same.mpr fun _ _ => Or.inl rfl

/-- The reports say the same, except for the work done if that is told. -/
structure Alike (stats : Bool) (report report' : Report) : Prop where
  accepted : report'.accepted = report.accepted
  lines : List.Forall₂ SameButWork report.lines report'.lines
  same : stats = false → report' = report

/-- Reports that are the same are alike. -/
theorem Alike.of_eq {stats : Bool} {report report' : Report} (h : report' = report) :
    Alike stats report report' where
  accepted := congrArg Report.accepted h
  lines := h ▸ sameButWork_refl report.lines
  same _ := h

/-- **Options are seen in the work done only**: not in the verdict, and in no other line. -/
theorem report_alike {request request' : Request} (hroom : request.HasRoom)
    (hroom' : request'.HasRoom) (hstats : request'.stats = request.stats)
    (htokens : request'.tokens = request.tokens) (input : String) :
    Alike request.stats (report request input) (report request' input) := by
  cases h : request.tokens with
  | true => exact .of_eq ((report_of_tokens (htokens.trans h) input).trans
      (report_of_tokens h input).symm)
  | false =>
      rw [report_of_verdict h, report_of_verdict (htokens.trans h)]
      rcases settled_verdict input with ⟨-, haccepts⟩ | ⟨-, e, hcomplains⟩
      · obtain ⟨work, hwork⟩ := haccepts request.options hroom
        obtain ⟨work', hwork'⟩ := haccepts request'.options hroom'
        rw [reportVerdict_of_ok hwork, reportVerdict_of_ok hwork', hstats]
        cases request.stats with
        | true =>
            rw [if_pos rfl, if_pos rfl]
            have hwork : SameButWork (statsLine work) (statsLine work') :=
              Or.inr ⟨work, work', rfl, rfl⟩
            exact ⟨rfl, .cons (Or.inl rfl) (.cons hwork .nil), fun h => Bool.noConfusion h⟩
        | false =>
            rw [if_neg Bool.false_ne_true, if_neg Bool.false_ne_true]
            exact .of_eq rfl
      · rw [reportVerdict_of_failed (hcomplains request.options hroom),
          reportVerdict_of_failed (hcomplains request'.options hroom')]
        exact .of_eq rfl

/-! ## Runs -/

/-- The outcomes say the same, except for the work done if that is told.  What they say are lines,
    each with a line feed after it. -/
structure Agree (stats : Bool) (outcome outcome' : Outcome) : Prop where
  status : outcome'.status = outcome.status
  output : ∃ lines lines',
    outcome.output.toList = lines.flatMap (fun line => line.toList ++ ['\n']) ∧
      outcome'.output.toList = lines'.flatMap (fun line => line.toList ++ ['\n']) ∧
      List.Forall₂ SameButWork lines lines'
  same : stats = false → outcome' = outcome

/-- Where nothing is written there is no line to compare. -/
theorem Agree.silent {outcome : Outcome} (stats : Bool) (h : outcome.output = "") :
    Agree stats outcome outcome :=
  ⟨rfl, ⟨[], [], congrArg String.toList h, congrArg String.toList h, .nil⟩, fun _ => rfl⟩

/-- The characters that are written for some lines. -/
theorem toList_unlines (lines : List String) :
    (unlines lines).toList = lines.flatMap fun line => line.toList ++ ['\n'] := by
  rw [unlines, String.toList_join, List.flatMap_map]
  refine congrArg (fun f => List.flatMap f lines) (funext fun line => ?_)
  exact String.toList_append

/-- Reports that are alike, one after the other, make outcomes that agree. -/
theorem conclude_alike {request request' : Request} (hroom : request.HasRoom)
    (hroom' : request'.HasRoom) (hstats : request'.stats = request.stats)
    (htokens : request'.tokens = request.tokens) (inputs : List String) :
    Agree request.stats (conclude request inputs) (conclude request' inputs) := by
  have hreports : ∀ input, Alike request.stats (report request input) (report request' input) :=
    report_alike hroom hroom' hstats htokens
  have hlines : List.Forall₂ SameButWork ((inputs.map (report request)).flatMap Report.lines)
      ((inputs.map (report request')).flatMap Report.lines) := by
    induction inputs with
    | nil => exact .nil
    | cons input inputs ih =>
        rw [List.map_cons, List.map_cons, List.flatMap_cons, List.flatMap_cons]
        exact List.rel_append (hreports input).lines ih
  have haccepted : (inputs.map (report request')).all Report.accepted =
      (inputs.map (report request)).all Report.accepted := by
    rw [List.all_map, List.all_map]
    exact congrArg inputs.all (funext fun input => (hreports input).accepted)
  refine ⟨?_, ⟨_, _, toList_unlines _, toList_unlines _, hlines⟩, ?_⟩
  · rw [conclude, conclude]
    dsimp only
    rw [haccepted]
  · intro hnone
    have hsame : report request' = report request := funext fun input => (hreports input).same hnone
    rw [conclude, conclude, hsame]

/-- If no operand is unknown, then no argument is, for the flags are known. -/
theorem find?_isUnknown_eq_none {args : List String} :
    (operands args).find? (IsUnknown ·) = none ↔ ∀ arg ∈ args, ¬ IsUnknown arg := by
  rw [List.find?_eq_none]
  constructor
  · intro h arg harg hunknown
    exact h arg (List.mem_filter.mpr ⟨harg, decide_eq_true hunknown.1⟩) (decide_eq_true hunknown)
  · intro h arg harg hunknown
    exact h arg (List.mem_filter.mp harg).1 (of_decide_eq_true hunknown)

/-- Known arguments make a request. -/
theorem ofArgs_of_known {args : List String} (h : ∀ arg ∈ args, ¬ IsUnknown arg) :
    Request.ofArgs args = .ok (.after {} args) := by
  rw [Request.ofArgs_eq, find?_isUnknown_eq_none.mpr h]

/-- With an unknown flag nothing is reported. -/
theorem run_of_unknown {args : List String} {flag : String}
    (h : (operands args).find? (IsUnknown ·) = some flag) (stdin : ByteArray) :
    run args stdin = ⟨2, "", unlines ["unknown flag `" ++ flag ++ "`", usage]⟩ := by
  rw [run, Request.ofArgs_eq, h]

/-- Where inputs are given, the standard input is not read. -/
theorem run_of_operands {args : List String} (h : ∀ arg ∈ args, ¬ IsUnknown arg)
    (hsome : operands args ≠ []) (stdin : ByteArray) :
    run args stdin = conclude (.after {} args) (operands args) := by
  have hinputs : (Request.after {} args).inputs = operands args := List.nil_append _
  rw [run, ofArgs_of_known h]
  dsimp only
  rw [hinputs, if_neg (by rw [List.isEmpty_iff]; exact hsome)]

/-- Where none is given, its lines are the inputs. -/
theorem run_of_stdin {args : List String} (h : ∀ arg ∈ args, ¬ IsUnknown arg)
    (hnone : operands args = []) {stdin : ByteArray} {text : String}
    (htext : String.fromUTF8? stdin = some text) :
    run args stdin = conclude (.after {} args) (lines text) := by
  have hinputs : (Request.after {} args).inputs = [] := (List.nil_append _).trans hnone
  rw [run, ofArgs_of_known h]
  dsimp only
  rw [hinputs, List.isEmpty_nil, if_pos rfl, htext]

/-- And if it is no text, nothing can be reported. -/
theorem run_of_unreadable {args : List String} (h : ∀ arg ∈ args, ¬ IsUnknown arg)
    (hnone : operands args = []) {stdin : ByteArray} (hbytes : String.fromUTF8? stdin = none) :
    run args stdin =
      ⟨2, "", unlines ["failed to read stdin: stream did not contain valid UTF-8"]⟩ := by
  have hinputs : (Request.after {} args).inputs = [] := (List.nil_append _).trans hnone
  rw [run, ofArgs_of_known h]
  dsimp only
  rw [hinputs, List.isEmpty_nil, if_pos rfl, hbytes]

/-- What has been encoded can be decoded. -/
theorem fromUTF8?_toUTF8 (text : String) : String.fromUTF8? text.toUTF8 = some text :=
  dif_pos text.isValidUTF8

/-- The status is the conjunction of the verdicts. -/
theorem status_conclude {request : Request} (hroom : request.HasRoom) (inputs : List String) :
    (∀ input ∈ inputs, Passes request.tokens input) ∧ (conclude request inputs).status = 0 ∨
      (∃ input ∈ inputs, ¬ Passes request.tokens input) ∧
        (conclude request inputs).status = 1 := by
  have hverdict : ∀ input, (report request input).accepted = true ↔ Passes request.tokens input :=
    fun input => (report_reported hroom input).accepted_iff
  cases hall : (inputs.map (report request)).all Report.accepted with
  | true =>
      refine Or.inl ⟨?_, ?_⟩
      · rw [List.all_map, List.all_eq_true] at hall
        exact fun input hinput => (hverdict input).mp (hall input hinput)
      · rw [conclude]
        dsimp only
        rw [hall, if_pos rfl]
  | false =>
      refine Or.inr ⟨?_, ?_⟩
      · rw [List.all_map, List.all_eq_false] at hall
        obtain ⟨input, hinput, hnot⟩ := hall
        exact ⟨input, hinput, fun h => hnot ((hverdict input).mpr h)⟩
      · rw [conclude]
        dsimp only
        rw [hall, if_neg Bool.false_ne_true]

/-- The inputs of a run are read off the arguments, or are the lines of the standard input. -/
def InputsOf (args : List String) (text : String) (inputs : List String) : Prop :=
  operands args ≠ [] ∧ inputs = operands args ∨
    operands args = [] ∧ LinesOf text.toList inputs

/-- With known arguments and a text to read, all inputs are reported on. -/
theorem run_of_known {args : List String} (h : ∀ arg ∈ args, ¬ IsUnknown arg) (text : String) :
    ∃ inputs, InputsOf args text inputs ∧
      run args text.toUTF8 = conclude (.after {} args) inputs := by
  by_cases hnone : operands args = []
  · refine ⟨lines text, Or.inr ⟨hnone, lines_linesOf text⟩, ?_⟩
    exact run_of_stdin h hnone (fromUTF8?_toUTF8 text)
  · exact ⟨operands args, Or.inl ⟨hnone, rfl⟩, run_of_operands h hnone _⟩

/-- One more `--no-memo` is no operand and no other flag. -/
theorem run_agree (before after : List String) (stdin : ByteArray) :
    Agree ((before ++ after).contains "--stats") (run (before ++ after) stdin)
      (run (before ++ "--no-memo" :: after) stdin) := by
  have hoperands : operands (before ++ "--no-memo" :: after) = operands (before ++ after) := by
    rw [operands_append, operands_append]
    rfl
  have hstats : (Request.after {} (before ++ "--no-memo" :: after)).stats =
      (Request.after {} (before ++ after)).stats := by
    simp [Request.after]
  have htokens : (Request.after {} (before ++ "--no-memo" :: after)).tokens =
      (Request.after {} (before ++ after)).tokens := by
    simp [Request.after]
  have hroom := Request.hasRoom_after (before ++ after)
  have hroom' := Request.hasRoom_after (before ++ "--no-memo" :: after)
  cases hfind : (operands (before ++ after)).find? (IsUnknown ·) with
  | some flag =>
      rw [run_of_unknown hfind, run_of_unknown (hoperands ▸ hfind)]
      exact .silent _ rfl
  | none =>
      have hknown := find?_isUnknown_eq_none.mp hfind
      have hknown' := find?_isUnknown_eq_none.mp (hoperands ▸ hfind)
      by_cases hnone : operands (before ++ after) = []
      · have hnone' := hoperands.trans hnone
        cases hbytes : String.fromUTF8? stdin with
        | none =>
            rw [run_of_unreadable hknown hnone hbytes, run_of_unreadable hknown' hnone' hbytes]
            exact .silent _ rfl
        | some text =>
            rw [run_of_stdin hknown hnone hbytes, run_of_stdin hknown' hnone' hbytes]
            exact conclude_alike hroom hroom' hstats htokens (lines text)
      · rw [run_of_operands hknown hnone, run_of_operands hknown' (hoperands ▸ hnone), hoperands]
        exact conclude_alike hroom hroom' hstats htokens _

/-- **Every input is reported on, and only the verdicts decide.**  An unknown flag ends the run with
    status 2 before anything is reported.  Otherwise each input has its report, and what is written
    are the lines of all reports in the order of the inputs, each with a line feed after it; the
    status is 0 if all inputs pass and 1 if not.  Where the flags stand and how often does not
    matter; and one more `--no-memo` changes neither the status nor a line, except for those that
    tell of the work done. -/
theorem run_reports_all :
    (∀ (args : List String) (stdin : ByteArray), (∃ arg ∈ args, IsUnknown arg) →
      (run args stdin).status = 2 ∧ (run args stdin).output = "") ∧
    (∀ (args : List String) (text : String), (∀ arg ∈ args, ¬ IsUnknown arg) →
      ∃ inputs reports, InputsOf args text inputs ∧
        List.Forall₂ (Reported (.after {} args)) inputs reports ∧
        (run args text.toUTF8).output.toList =
          (reports.flatMap Report.lines).flatMap (fun line => line.toList ++ ['\n']) ∧
        ((∀ input ∈ inputs, Passes (args.contains "--tokens") input) ∧
            (run args text.toUTF8).status = 0 ∨
          (∃ input ∈ inputs, ¬ Passes (args.contains "--tokens") input) ∧
            (run args text.toUTF8).status = 1)) ∧
    (∀ (args args' : List String) (stdin : ByteArray), operands args = operands args' →
      (∀ flag ∈ flags, flag ∈ args ↔ flag ∈ args') → run args stdin = run args' stdin) ∧
    ∀ (before after : List String) (stdin : ByteArray),
      Agree ((before ++ after).contains "--stats") (run (before ++ after) stdin)
        (run (before ++ "--no-memo" :: after) stdin) := by
  refine ⟨?_, ?_, ?_, run_agree⟩
  · intro args stdin hunknown
    cases hfind : (operands args).find? (IsUnknown ·) with
    | none =>
        obtain ⟨arg, harg, hflag⟩ := hunknown
        exact absurd hflag (find?_isUnknown_eq_none.mp hfind arg harg)
    | some flag =>
        rw [run_of_unknown hfind]
        exact ⟨rfl, rfl⟩
  · intro args text hknown
    obtain ⟨inputs, hinputs, hrun⟩ := run_of_known hknown text
    refine ⟨inputs, inputs.map (report (.after {} args)), hinputs, ?_, ?_, ?_⟩
    · exact List.forall₂_map_right_iff.mpr
        (List.forall₂_same.mpr fun input _ => report_reported (Request.hasRoom_after args) input)
    · rw [hrun]
      exact toList_unlines _
    · rw [hrun]
      exact status_conclude (Request.hasRoom_after args) inputs
  · intro args args' stdin hoperands hflags
    rw [run, run, Request.ofArgs_congr hoperands hflags]

/-- A flag that is not known, an input that is no statement in front of one that is, a flag that is
    moved and repeated, and one that is added.  The output ends each line with a line feed, and the
    one line that `--no-memo` changes is that of the work done. -/
theorem run_reports_all_mixed :
    let reject := "reject: no alternative of `statement` matches '[' \"[\" at token 0 (1:1); " ++
      "furthest failure: expecting ']'; found <EOF> \"\" at token 2 (1:3)\naccept\n"
    let work := fun hits misses => "  ParseStats \x7b tokens_pulled: 6, memo_hits: " ++ hits ++
      ", memo_misses: " ++ misses ++
      ", memo_entries: 0, truncations: 1, retired: 6, peak_buffered: 6 \x7d\n"
    (run ["[a]", "--fast"] .empty).status = 2 ∧
      (run ["[a", "--stats", "[]=[]"] "".toUTF8).output = reject ++ work "2" "3" ∧
      (∃ inputs reports, InputsOf ["[a", "--stats", "[]=[]"] "" inputs ∧
        List.Forall₂ (Reported (.after {} ["[a", "--stats", "[]=[]"])) inputs reports ∧
        (run ["[a", "--stats", "[]=[]"] "".toUTF8).output.toList =
          (reports.flatMap Report.lines).flatMap (fun line => line.toList ++ ['\n']) ∧
        ∃ input ∈ inputs, ¬ Passes false input) ∧
      run ["--stats", "[a", "[]=[]", "--stats"] .empty = run ["[a", "--stats", "[]=[]"] .empty ∧
      (run ["[a", "--stats", "--no-memo", "[]=[]"] .empty).output = reject ++ work "0" "0" ∧
      Agree true (run ["[a", "--stats", "[]=[]"] .empty)
        (run ["[a", "--stats", "--no-memo", "[]=[]"] .empty) := by
  intro reject work
  obtain ⟨hunknown, hreports, hflags, hmemo⟩ := run_reports_all
  refine ⟨(hunknown _ _ ⟨"--fast", by decide +kernel, by decide +kernel⟩).1, by decide +kernel, ?_,
    hflags _ _ _ (by decide +kernel) (by decide +kernel), by decide +kernel,
    hmemo ["[a", "--stats"] ["[]=[]"] .empty⟩
  obtain ⟨inputs, reports, hinputs, hreported, houtput, hstatus⟩ :=
    hreports ["[a", "--stats", "[]=[]"] "" (by decide +kernel)
  refine ⟨inputs, reports, hinputs, hreported, houtput, ?_⟩
  rcases hstatus with ⟨-, hzero⟩ | ⟨hfails, -⟩
  · have hone : (run ["[a", "--stats", "[]=[]"] "".toUTF8).status = 1 := by decide +kernel
    exact absurd (hone.symm.trans hzero) (by decide)
  · exact hfails

end Packrat.CommandLine
