import FilterQuery.Proofs.Arguments
import Mathlib.Data.List.TakeWhile
/-!
# How runs end

A run succeeds and says nothing on standard error, fails and writes nothing to standard
output, or does not understand its arguments. `Request.Fails` lists when a request fails
and for what reason, and `run_ends` says that runs fail for no other reason.
-/

namespace FilterQuery

/-! ## Reasons to fail -/

namespace Request

/-- The text that a request works on: the one that is given, or else that of standard
input, up to the line ends at its end. -/
inductive Takes (stdin : ByteArray) : Option String → String → Prop where
  | given (text : String) : Takes stdin (some text) text
  | read {text ends : String} (h : stdin = (text ++ ends).toUTF8)
      (htext : ∀ c ∈ text.toList.getLast?, c ≠ '\n' ∧ c ≠ '\r') (hends : ∀ c ∈ ends.toList, c = '\n' ∨ c = '\r') :
      Takes stdin none text

/-- The request is to convert or to tokenize a filter, the one that is given or else that
on standard input. -/
inductive IsFilter (query : Option String) : Request → Prop where
  | convert (isPretty : Bool) (dialect : Dialect) : IsFilter query (.convert query isPretty dialect)
  | tokenize : IsFilter query (.tokenize query)

/-- A request that was understood fails for a reason. -/
inductive Fails (stdin : ByteArray) : Request → Failure → Prop where
  | invalidUtf8 {request : Request} (hreads : request.readsInput = true) (h : ¬ stdin.IsValidUTF8) :
      Fails stdin request .invalidUtf8
  | invalidJson {input : Option String} {isPretty : Bool} {dialect : Dialect} {text : String}
      (htext : Takes stdin input text) (h : Json.read? text.toList = none) :
      Fails stdin (.batch input isPretty dialect) .invalidJson
  | notArray {input : Option String} {isPretty : Bool} {dialect : Dialect} {text : String} {value : Json}
      (htext : Takes stdin input text) (h : Json.read? text.toList = some value)
      (harray : ∀ items, value ≠ .array items) :
      Fails stdin (.batch input isPretty dialect) (.notArray value.kind)
  | unknownTopic {name : String} (h : ∀ topic : Topic, name.toLower ∉ topic.names) :
      Fails stdin (.doc name) (.unknownTopic name)

end Request

/-! ## Standard input -/

theorem toUTF8_of_fromUTF8? {bytes : ByteArray} {text : String} (h : String.fromUTF8? bytes = some text) :
    bytes = text.toUTF8 := by
  unfold String.fromUTF8? at h
  split at h
  · obtain rfl := Option.some.inj h
    rfl
  · cases h

theorem fromUTF8?_eq_none_iff {bytes : ByteArray} : String.fromUTF8? bytes = none ↔ ¬ bytes.IsValidUTF8 := by
  unfold String.fromUTF8?
  split <;> simp_all

/-- A text is what is left when the line ends at its end are cut off, and these. -/
theorem Text.exists_trimLineEnds (text : Text) :
    ∃ ends, text = trimLineEnds text ++ ends ∧ (∀ c ∈ ends, c = '\n' ∨ c = '\r') ∧
      ∀ c ∈ (trimLineEnds text).getLast?, c ≠ '\n' ∧ c ≠ '\r' := by
  let isEnd (c : Char) : Bool := c = '\n' || c = '\r'
  have hsplit := List.takeWhile_append_dropWhile (p := isEnd) (l := text.reverse)
  refine ⟨(text.reverse.takeWhile isEnd).reverse, ?_, fun c hc => ?_, fun c hc => ?_⟩
  · rw [trimLineEnds, ← List.reverse_append, hsplit, List.reverse_reverse]
  · simpa [isEnd] using List.mem_takeWhile_imp (List.mem_reverse.1 hc)
  · have hc' : (text.reverse.dropWhile isEnd).head? = some c := by
      rwa [trimLineEnds, List.getLast?_reverse] at hc
    have hno := List.head?_dropWhile_not isEnd text.reverse
    rw [hc'] at hno
    simpa [isEnd] using hno

namespace Request

variable {stdin : ByteArray} {given : Option String} {text : String} {reason : Failure}

theorem inputText_eq_ok_iff : inputText given stdin = .ok text ↔ Takes stdin given text := by
  constructor
  · intro h
    cases given with
    | some other =>
      obtain rfl := Except.ok.inj h
      exact .given other
    | none =>
      rw [inputText] at h
      cases hread : String.fromUTF8? stdin with
      | none =>
        rw [hread] at h
        cases h
      | some read =>
        rw [hread] at h
        obtain rfl := Except.ok.inj h
        obtain ⟨ends, hsplit, hends, hlast⟩ := Text.exists_trimLineEnds read.toList
        have htext : String.ofList (Text.trimLineEnds read.toList) ++ String.ofList ends = read := by
          rw [← String.ofList_append, ← hsplit, String.ofList_toList]
        have hbytes : stdin = (String.ofList (Text.trimLineEnds read.toList) ++ String.ofList ends).toUTF8 := by
          rw [htext]
          exact toUTF8_of_fromUTF8? hread
        exact .read hbytes (by simpa using hlast) (by simpa using hends)
  · intro h
    cases h with
    | given => rfl
    | read hbytes htext hends => rw [hbytes, inputText_stdin htext hends]

theorem inputText_eq_error_iff :
    inputText given stdin = .error reason ↔ given = none ∧ ¬ stdin.IsValidUTF8 ∧ reason = .invalidUtf8 := by
  cases given with
  | some text => simp [inputText]
  | none =>
    rw [inputText, ← fromUTF8?_eq_none_iff]
    cases String.fromUTF8? stdin with
    | none => simp [eq_comm]
    | some text => simp

end Request

/-! ## Commands -/

theorem Report.batch_eq_error_iff {clock : Instant} {dialect : Dialect} {isPretty : Bool} {text : String}
    {reason : Failure} : batch clock dialect isPretty (some text) = .error reason ↔
      (Json.read? text.toList = none ∧ reason = .invalidJson) ∨
        ∃ value, Json.read? text.toList = some value ∧ (∀ items, value ≠ .array items) ∧ reason = .notArray value.kind := by
  cases hread : Json.read? text.toList with
  | none => simp [batch, hread, throw, throwThe, MonadExceptOf.throw, eq_comm]
  | some value =>
    cases value <;> simp [batch, hread, throw, throwThe, MonadExceptOf.throw, pure, Except.pure, eq_comm]

theorem Topic.ofName?_eq_none_iff {name : String} : ofName? name = none ↔ ∀ topic : Topic, name.toLower ∉ topic.names := by
  have hall : ∀ topic : Topic, topic ∈ [grammar, operators, values, dialects] := by
    intro topic
    cases topic <;> decide
  simp only [ofName?, List.find?_eq_none, List.contains_iff_mem]
  exact ⟨fun h topic => h topic (hall topic), fun h topic _ => h topic⟩

theorem Report.topic_eq_error_iff {name : String} {reason : Failure} :
    topic name = .error reason ↔ (∀ topic : Topic, name.toLower ∉ topic.names) ∧ reason = .unknownTopic name := by
  rw [topic, ← Topic.ofName?_eq_none_iff]
  cases Topic.ofName? name <;> simp [eq_comm]

/-! ## Requests -/

/-- A computation that fails for the reasons of `P` ends in success without any of them, or
in failure for one. -/
theorem Outcome.ofExcept_cases {result : Except Failure String} {P : Failure → Prop}
    (h : ∀ reason, result = .error reason ↔ P reason) (lineEnd : String) :
    (∃ output, ofExcept lineEnd result = success output ∧ ∀ reason, ¬ P reason) ∨
      ∃ reason, ofExcept lineEnd result = failure reason ∧ P reason := by
  cases result with
  | ok text =>
    refine .inl ⟨text ++ lineEnd, rfl, fun reason hreason => ?_⟩
    cases (h reason).2 hreason
  | error reason => exact .inr ⟨reason, rfl, (h reason).1 rfl⟩

namespace Request

section Cases
variable {stdin : ByteArray} {reason : Failure}

theorem map_eq_error_iff {result : Except Failure String} (f : String → String) :
    result.map f = .error reason ↔ result = .error reason := by
  cases result <;> simp [Except.map]

/-- Nothing but bytes that are no text keeps a filter from being worked on. -/
theorem IsFilter.fails_iff {request : Request} {query : Option String} (h : request.IsFilter query) :
    Fails stdin request reason ↔ inputText query stdin = .error reason := by
  have hreads : request.readsInput = true ↔ query = none := by
    cases h <;> cases query <;> simp [readsInput]
  rw [inputText_eq_error_iff]
  constructor
  · intro hfails
    cases hfails with
    | invalidUtf8 hreading hbytes => exact ⟨hreads.1 hreading, hbytes, rfl⟩
    | invalidJson => cases h
    | notArray => cases h
    | unknownTopic => cases h
  · rintro ⟨hquery, hbytes, rfl⟩
    exact .invalidUtf8 (hreads.2 hquery) hbytes

theorem fails_batch_iff (clock : Instant) {input : Option String} {isPretty : Bool} {dialect : Dialect} :
    Fails stdin (batch input isPretty dialect) reason ↔
      inputText input stdin >>= (fun text => Report.batch clock dialect isPretty (some text)) = .error reason := by
  constructor
  · intro h
    cases h with
    | invalidUtf8 hreads h =>
      cases input with
      | some text => cases hreads
      | none => rw [inputText_eq_error_iff.2 ⟨rfl, h, rfl⟩]; rfl
    | invalidJson htext h =>
      rw [inputText_eq_ok_iff.2 htext]
      exact Report.batch_eq_error_iff.2 (.inl ⟨h, rfl⟩)
    | notArray htext h harray =>
      rw [inputText_eq_ok_iff.2 htext]
      exact Report.batch_eq_error_iff.2 (.inr ⟨_, h, harray, rfl⟩)
  · intro h
    cases htext : inputText input stdin with
    | error other =>
      rw [htext] at h
      obtain rfl := Except.error.inj h
      obtain ⟨rfl, hbytes, rfl⟩ := inputText_eq_error_iff.1 htext
      exact .invalidUtf8 rfl hbytes
    | ok text =>
      rw [htext] at h
      rcases Report.batch_eq_error_iff.1 h with ⟨hread, rfl⟩ | ⟨value, hread, harray, rfl⟩
      · exact .invalidJson (inputText_eq_ok_iff.1 htext) hread
      · exact .notArray (inputText_eq_ok_iff.1 htext) hread harray

theorem fails_doc_iff {name : String} : Fails stdin (doc name) reason ↔ Report.topic name = .error reason := by
  rw [Report.topic_eq_error_iff]
  constructor
  · intro h
    cases h with
    | invalidUtf8 hreads h => cases hreads
    | unknownTopic h => exact ⟨h, rfl⟩
  · rintro ⟨h, rfl⟩
    exact .unknownTopic h

end Cases

/-- A request succeeds if there is no reason for it to fail, and else fails for a reason. -/
theorem run_cases (request : Request) (clock : Instant) (stdin : ByteArray) :
    (∃ output, request.run clock stdin = .success output ∧ ∀ reason, ¬ request.Fails stdin reason) ∨
      ∃ reason, request.run clock stdin = .failure reason ∧ request.Fails stdin reason := by
  cases request with
  | version => exact .inl ⟨_, rfl, fun reason h => by cases h with | invalidUtf8 hreads => cases hreads⟩
  | help => exact .inl ⟨_, rfl, fun reason h => by cases h with | invalidUtf8 hreads => cases hreads⟩
  | docs => exact .inl ⟨_, rfl, fun reason h => by cases h with | invalidUtf8 hreads => cases hreads⟩
  | convert query isPretty dialect =>
    have h : (convert query isPretty dialect).IsFilter query := .convert isPretty dialect
    exact Outcome.ofExcept_cases (fun reason => (map_eq_error_iff _).trans h.fails_iff.symm) "\n"
  | tokenize query =>
    have h : (tokenize query).IsFilter query := .tokenize
    exact Outcome.ofExcept_cases (fun reason => (map_eq_error_iff _).trans h.fails_iff.symm) ""
  | batch input isPretty dialect =>
    exact Outcome.ofExcept_cases (fun reason => (fails_batch_iff clock).symm) "\n"
  | doc name => exact Outcome.ofExcept_cases (fun reason => fails_doc_iff.symm) ""

end Request

/-! ## Runs -/

theorem Failure.message_ne_empty (reason : Failure) : reason.message ++ "\n" ≠ "" := by
  intro h
  have hlength := congrArg String.length h
  simp at hlength

/-- A run ends in one of three ways, and it fails exactly for the reasons that its request
has to fail. A filter that is text never fails, however malformed it is. -/
theorem run_ends (clock : Instant) (arguments : List String) (stdin : ByteArray) :
    let outcome := run clock arguments stdin
    let request? := Request.ofArguments? arguments
    ((outcome.exitCode = 0 ∧ outcome.errors = "") ∨
      (outcome.exitCode = 1 ∧ outcome.output = "" ∧ outcome.errors ≠ "") ∨ outcome.exitCode = 2) ∧
    (outcome.exitCode = 2 ↔ request? = none) ∧
    (outcome.exitCode = 1 ↔ ∃ request reason, request? = some request ∧ request.Fails stdin reason) ∧
    (∀ request query, request? = some request → request.IsFilter query → query ≠ none ∨ stdin.IsValidUTF8 →
      outcome.exitCode = 0) := by
  intro outcome request?
  cases hrequest : Request.ofArguments? arguments with
  | none =>
    have hrun : outcome = .usage := by simp only [outcome, run, hrequest]
    simp [hrun, request?, hrequest, Outcome.usage]
  | some request =>
    have hrun : outcome = request.run clock stdin := run_of_request hrequest
    rcases request.run_cases clock stdin with ⟨output, hsuccess, hno⟩ | ⟨reason, hfailure, hfails⟩
    · simp [hrun, hsuccess, request?, hrequest, Outcome.success, hno]
    · have hmessage := reason.message_ne_empty
      have hfilter : ∀ query, request.IsFilter query → ¬ (query ≠ none ∨ stdin.IsValidUTF8) := by
        intro query hquery
        obtain ⟨hnone, hbytes, -⟩ := Request.inputText_eq_error_iff.1 (hquery.fails_iff.1 hfails)
        simp [hnone, hbytes]
      refine ⟨.inr (.inl ?_), ?_, ?_, ?_⟩
      · simp [hrun, hfailure, Outcome.failure, hmessage]
      · simp [hrun, hfailure, request?, hrequest, Outcome.failure]
      · have hexit : outcome.exitCode = 1 := by rw [hrun, hfailure]; rfl
        exact ⟨fun _ => ⟨request, reason, hrequest, hfails⟩, fun _ => hexit⟩
      · intro other query hother hquery htext
        obtain rfl := Option.some.inj (hrequest.symm.trans hother)
        exact absurd htext (hfilter query hquery)

/-- A malformed filter, a batch that is no array, a byte that is no text, and an option without
its value. -/
theorem run_ends_malformed :
    let clock : Instant := ⟨0, 0, by decide, by decide, by decide⟩
    let filter := "((a=&'".toUTF8
    filter.IsValidUTF8 ∧ (run clock ["convert", "-p"] filter).exitCode = 0 ∧
      Request.Fails "7\r\n".toUTF8 (.batch none false .plain) (.notArray "number") ∧
      (run clock ["batch"] "7\r\n".toUTF8).exitCode = 1 ∧
      (run clock ["tokenize"] ⟨#[0xff]⟩).exitCode = 1 ∧ (run clock ["convert", "a", "-d"] filter).exitCode = 2 := by
  intro clock filter
  have hfilter : filter.IsValidUTF8 := String.isValidUTF8 _
  have htakes : Request.Takes "7\r\n".toUTF8 none "7" :=
    .read (show "7\r\n".toUTF8 = ("7" ++ "\r\n").toUTF8 from rfl) (by simp) (by simp)
  have hread : Json.read? "7".toList = some (.number (.integer 7)) := rfl
  have hbatch : Request.Fails "7\r\n".toUTF8 (.batch none false .plain) (.notArray "number") :=
    .notArray htakes hread nofun
  have hbyte : ¬ ByteArray.IsValidUTF8 ⟨#[0xff]⟩ := fromUTF8?_eq_none_iff.1 (by decide)
  have hpretty : ["-p"] ∈ prettySpellings := by decide
  have hrequest : Request.ofArguments? ["convert", "-p"] = some (.convert none true .plain) :=
    Request.ofArguments?_convert (.pretty hpretty .nil)
  obtain ⟨-, -, -, hconvert⟩ := run_ends clock ["convert", "-p"] filter
  obtain ⟨-, -, hfails, -⟩ := run_ends clock ["batch"] "7\r\n".toUTF8
  obtain ⟨-, -, hfails', -⟩ := run_ends clock ["tokenize"] ⟨#[0xff]⟩
  obtain ⟨-, husage, -, -⟩ := run_ends clock ["convert", "a", "-d"] filter
  exact ⟨hfilter, hconvert _ none hrequest (.convert true .plain) (.inr hfilter), hbatch,
    hfails.2 ⟨_, _, Request.ofArguments?_batch .nil, hbatch⟩,
    hfails'.2 ⟨_, _, rfl, .invalidUtf8 rfl hbyte⟩, husage.2 (by decide +kernel)⟩

end FilterQuery
