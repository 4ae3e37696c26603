import FilterQuery.Command.Run
/-!
# Input from arguments and from standard input

`Options` are the ways to write the options of a subcommand, in any order and each at
most once. However they are written, `Options.exists_settings` gives the settings that
they mean, so the same text reaches a command as an argument or from standard input,
where line ends at its end do not count.
-/

namespace FilterQuery

/-! ## Spellings -/

/-- The ways to ask for indented text. -/
def prettySpellings : List (List String) := [["-p"], ["--pretty"]]

/-- The ways to name a dialect. -/
def dialectSpellings (name : String) : List (List String) :=
  [["-d", name], ["-d" ++ name], ["-d=" ++ name], ["--dialect", name], ["--dialect=" ++ name]]

/-- The ways to do both at once. -/
def joinedSpellings (name : String) : List (List String) :=
  [["-pd", name], ["-pd" ++ name], ["-pd=" ++ name]]

/-- The arguments are options that set an input, ask for indented text or not, and name a dialect. -/
inductive Options :
    (input? : Option String) → (isPretty : Bool) → (dialect? : Option Dialect) → List String → Prop where
  | nil : Options none false none []
  | pretty {input? : Option String} {dialect? : Option Dialect} {spelling arguments : List String}
      (h : spelling ∈ prettySpellings) (rest : Options input? false dialect? arguments) :
      Options input? true dialect? (spelling ++ arguments)
  | dialect {input? : Option String} {isPretty : Bool} {dialect : Dialect} {spelling arguments : List String}
      (h : spelling ∈ dialectSpellings dialect.name) (rest : Options input? isPretty none arguments) :
      Options input? isPretty (some dialect) (spelling ++ arguments)
  | joined {input? : Option String} {dialect : Dialect} {spelling arguments : List String}
      (h : spelling ∈ joinedSpellings dialect.name) (rest : Options input? false none arguments) :
      Options input? true (some dialect) (spelling ++ arguments)
  | input (text : String) {isPretty : Bool} {dialect? : Option Dialect} {arguments : List String}
      (rest : Options none isPretty dialect? arguments) :
      Options (some text) isPretty dialect? (("--input=" ++ text) :: arguments)

namespace Setting

/-! ## Settings -/

/-- The setting is one of the option. -/
def sets (flag : Flag) : Setting → Bool
  | .flag other _ => other = flag
  | .word _ => false

theorem isOnce_iff (settings : List Setting) :
    isOnce settings = true ↔ ∀ flag, (settings.filter (sets flag)).length ≤ 1 := by
  have hcount : isOnce settings = [Flag.help, .pretty, .dialect, .input].all fun flag =>
      (settings.filter (sets flag)).length ≤ 1 := rfl
  rw [hcount]
  constructor
  · intro h flag
    have hm : flag ∈ [Flag.help, .pretty, .dialect, .input] := by cases flag <;> decide
    exact of_decide_eq_true (List.all_eq_true.1 h flag hm)
  · intro h
    exact List.all_eq_true.2 fun flag _ => decide_eq_true (h flag)

theorem valueOf?_cons (flag other : Flag) (value : String) (settings : List Setting) :
    valueOf? flag (.flag other value :: settings) = if other = flag then some value else valueOf? flag settings := by
  unfold valueOf?
  by_cases h : other = flag <;> simp [h]

theorem filter_sets_eq_nil {flag : Flag} {settings : List Setting} (h : valueOf? flag settings = none) :
    settings.filter (sets flag) = [] := by
  induction settings with
  | nil => rfl
  | cons setting settings ih =>
    cases setting with
    | word text => exact ih h
    | flag other value =>
      rw [valueOf?_cons] at h
      by_cases hflag : other = flag
      · rw [if_pos hflag] at h
        cases h
      · rw [if_neg hflag] at h
        simpa [sets, hflag] using ih h

theorem isOnce_cons {flag : Flag} {settings : List Setting} (h : isOnce settings = true)
    (hnone : valueOf? flag settings = none) (value : String) : isOnce (.flag flag value :: settings) = true := by
  rw [isOnce_iff] at h ⊢
  intro other
  by_cases hflag : flag = other
  · subst hflag
    simp [sets, filter_sets_eq_nil hnone]
  · simpa [sets, hflag] using h other

theorem valueOf?_append_word (flag : Flag) (settings : List Setting) (text : String) :
    valueOf? flag (settings ++ [.word text]) = valueOf? flag settings := by
  simp [valueOf?]

theorem isOnce_append_word {settings : List Setting} (h : isOnce settings = true) (text : String) :
    isOnce (settings ++ [.word text]) = true := by
  rw [isOnce_iff] at h ⊢
  intro flag
  simpa [sets] using h flag

/-- The words among settings and what the options set, each at most once. -/
structure Means (settings : List Setting) (texts : List String) (input? : Option String) (isPretty : Bool)
    (dialect? : Option Dialect) : Prop where
  words : words settings = texts
  input : valueOf? .input settings = input?
  pretty : (valueOf? .pretty settings).isSome = isPretty
  dialect : valueOf? .dialect settings = dialect?.map Dialect.name
  help : asksHelp settings = false
  once : isOnce settings = true

section Means
variable {settings : List Setting} {texts : List String} {input? : Option String} {isPretty : Bool}
  {dialect? : Option Dialect}

theorem means_nil : Means [] [] none false none := ⟨rfl, rfl, rfl, rfl, rfl, rfl⟩

theorem Means.cons_pretty (h : Means settings texts input? false dialect?) :
    Means (.flag .pretty "" :: settings) texts input? true dialect? where
  words := h.words
  input := by simp [valueOf?_cons, h.input]
  pretty := by simp [valueOf?_cons]
  dialect := by simp [valueOf?_cons, h.dialect]
  help := h.help
  once := isOnce_cons h.once (Option.isSome_eq_false_iff.1 h.pretty |> Option.isNone_iff_eq_none.1) _

theorem Means.cons_dialect (h : Means settings texts input? isPretty none) (dialect : Dialect) :
    Means (.flag .dialect dialect.name :: settings) texts input? isPretty (some dialect) where
  words := h.words
  input := by simp [valueOf?_cons, h.input]
  pretty := by simp [valueOf?_cons, h.pretty]
  dialect := by simp [valueOf?_cons]
  help := h.help
  once := isOnce_cons h.once h.dialect _

theorem Means.cons_input (h : Means settings texts none isPretty dialect?) (text : String) :
    Means (.flag .input text :: settings) texts (some text) isPretty dialect? where
  words := h.words
  input := by simp [valueOf?_cons]
  pretty := by simp [valueOf?_cons, h.pretty]
  dialect := by simp [valueOf?_cons, h.dialect]
  help := h.help
  once := isOnce_cons h.once h.input _

theorem Means.append_word (h : Means settings texts input? isPretty dialect?) (text : String) :
    Means (settings ++ [.word text]) (texts ++ [text]) input? isPretty dialect? where
  words := by
    have hwords := h.words
    unfold Setting.words at hwords ⊢
    rw [List.filterMap_append, hwords]
    rfl
  input := by rw [valueOf?_append_word, h.input]
  pretty := by rw [valueOf?_append_word, h.pretty]
  dialect := by rw [valueOf?_append_word, h.dialect]
  help := by rw [asksHelp, valueOf?_append_word, ← asksHelp, h.help]
  once := isOnce_append_word h.once text

theorem Means.dialect?_eq (h : Means settings texts input? isPretty dialect?) :
    Request.dialect? settings = some (dialect?.getD .plain) := by
  have hname : ∀ dialect : Dialect, Dialect.ofName? dialect.name = some dialect := by
    intro dialect
    cases dialect <;> rfl
  rw [Request.dialect?, h.dialect]
  cases dialect? with
  | none => rfl
  | some dialect => exact hname dialect

end Means

/-! ## From arguments to settings -/

/-- The arguments make the settings, whatever arguments come after them. -/
def Makes (flags : List Flag) (arguments : List String) (settings : List Setting) : Prop :=
  ∀ rest, ofArguments? flags (arguments ++ rest) = (ofArguments? flags rest).map (settings ++ ·)

section Makes
variable {flags : List Flag} {settings : List Setting} {arguments : List String}

theorem makes_nil : Makes flags [] [] := by
  intro rest
  cases h : ofArguments? flags rest <;> simp [h]

theorem makes_argument {argument : String}
    (h : ofArgument? flags argument.toList = some (settings, none) ∧ argument ≠ "--")
    (hhelp : asksHelp settings = false) : Makes flags [argument] settings := by
  intro rest
  rw [List.singleton_append, ofArguments?, if_neg h.2, h.1]
  simp only [Option.bind_eq_bind, Option.bind_some, hhelp, Bool.false_eq_true, if_false]

theorem makes_value {argument value : String} {flag : Flag}
    (h : ofArgument? flags argument.toList = some (settings, some flag) ∧ argument ≠ "--")
    (hhelp : asksHelp settings = false) (hvalue : isOption value.toList = false) :
    Makes flags [argument, value] (settings ++ [.flag flag value]) := by
  intro rest
  rw [List.cons_append, List.singleton_append, ofArguments?, if_neg h.2, h.1]
  simp [hhelp, hvalue]

theorem Makes.append {more : List String} {others : List Setting} (h : Makes flags arguments settings)
    (hmore : Makes flags more others) : Makes flags (arguments ++ more) (settings ++ others) := by
  intro rest
  rw [List.append_assoc, h, hmore, Option.map_map]
  simp [Function.comp_def]

theorem Makes.ofArguments? (h : Makes flags arguments settings) : ofArguments? flags arguments = some settings := by
  have hall := h []
  rwa [List.append_nil, Setting.ofArguments?, Option.map_some, List.append_nil] at hall

/-- Behind `--` a text is a word, whatever it looks like. -/
theorem Makes.ofArguments?_word (h : Makes flags arguments settings) (text : String) :
    Setting.ofArguments? flags (arguments ++ ["--", text]) = some (settings ++ [.word text]) := by
  rw [h, Setting.ofArguments?, if_pos rfl]
  rfl

end Makes

/-! ## Spelled options -/

section Spelled
variable {flags : List Flag} (hflags : flags = [.input, .pretty, .dialect] ∨ flags = [.pretty, .dialect])
include hflags

theorem makes_pretty {spelling : List String} (h : spelling ∈ prettySpellings) :
    Makes flags spelling [.flag .pretty ""] := by
  have hone : ∀ argument ∈ ["-p", "--pretty"],
      ofArgument? flags argument.toList = some ([.flag .pretty ""], none) ∧ argument ≠ "--" := by
    simp only [List.forall_mem_cons]
    rcases hflags with rfl | rfl <;> exact ⟨⟨rfl, by decide⟩, ⟨rfl, by decide⟩, nofun⟩
  simp only [prettySpellings, List.mem_cons, List.not_mem_nil, or_false] at h
  rcases h with rfl | rfl
  · exact makes_argument (hone _ (by simp)) rfl
  · exact makes_argument (hone _ (by simp)) rfl

theorem makes_dialect {dialect : Dialect} {spelling : List String} (h : spelling ∈ dialectSpellings dialect.name) :
    Makes flags spelling [.flag .dialect dialect.name] := by
  have hvalue : isOption dialect.name.toList = false := by cases dialect <;> decide
  have hseparate : ∀ argument ∈ ["-d", "--dialect"],
      ofArgument? flags argument.toList = some ([], some .dialect) ∧ argument ≠ "--" := by
    simp only [List.forall_mem_cons]
    rcases hflags with rfl | rfl <;> exact ⟨⟨rfl, by decide⟩, ⟨rfl, by decide⟩, nofun⟩
  have hattached : ∀ argument ∈ ["-d" ++ dialect.name, "-d=" ++ dialect.name, "--dialect=" ++ dialect.name],
      ofArgument? flags argument.toList = some ([.flag .dialect dialect.name], none) ∧ argument ≠ "--" := by
    simp only [List.forall_mem_cons]
    cases dialect <;> rcases hflags with rfl | rfl <;>
      exact ⟨⟨rfl, by decide⟩, ⟨rfl, by decide⟩, ⟨rfl, by decide⟩, nofun⟩
  simp only [dialectSpellings, List.mem_cons, List.not_mem_nil, or_false] at h
  rcases h with rfl | rfl | rfl | rfl | rfl
  · exact makes_value (hseparate _ (by simp)) rfl hvalue
  · exact makes_argument (hattached _ (by simp)) rfl
  · exact makes_argument (hattached _ (by simp)) rfl
  · exact makes_value (hseparate _ (by simp)) rfl hvalue
  · exact makes_argument (hattached _ (by simp)) rfl

theorem makes_joined {dialect : Dialect} {spelling : List String} (h : spelling ∈ joinedSpellings dialect.name) :
    Makes flags spelling [.flag .pretty "", .flag .dialect dialect.name] := by
  have hvalue : isOption dialect.name.toList = false := by cases dialect <;> decide
  have hseparate : ofArgument? flags "-pd".toList = some ([.flag .pretty ""], some .dialect) ∧ "-pd" ≠ "--" := by
    rcases hflags with rfl | rfl <;> exact ⟨rfl, by decide⟩
  have hattached : ∀ argument ∈ ["-pd" ++ dialect.name, "-pd=" ++ dialect.name],
      ofArgument? flags argument.toList = some ([.flag .pretty "", .flag .dialect dialect.name], none) ∧
        argument ≠ "--" := by
    simp only [List.forall_mem_cons]
    cases dialect <;> rcases hflags with rfl | rfl <;> exact ⟨⟨rfl, by decide⟩, ⟨rfl, by decide⟩, nofun⟩
  simp only [joinedSpellings, List.mem_cons, List.not_mem_nil, or_false] at h
  rcases h with rfl | rfl | rfl
  · exact makes_value hseparate rfl hvalue
  · exact makes_argument (hattached _ (by simp)) rfl
  · exact makes_argument (hattached _ (by simp)) rfl

end Spelled

/-- Any text is attached to the long option for the input as it stands. -/
theorem makes_input (text : String) :
    Makes [.input, .pretty, .dialect] ["--input=" ++ text] [.flag .input text] := by
  have hcut : Text.cut? ['='] ("input=".toList ++ text.toList) = some ("input".toList, text.toList) := rfl
  have hlong : ofLong? [.input, .pretty, .dialect] ("input=".toList ++ text.toList) =
      some ([.flag .input text], none) := by
    rw [ofLong?, hcut]
    exact congrArg (fun text => some ([Setting.flag .input text], none)) String.ofList_toList
  refine makes_argument ⟨?_, ?_⟩ rfl
  · rw [String.toList_append]
    exact hlong
  · intro h
    have hlength := congrArg (fun argument => argument.toList.length) h
    simp [String.toList_append] at hlength

end Setting

/-! ## From options to requests -/

/-- However options are written, they make settings that mean what they are to mean. -/
theorem Options.exists_settings {input? : Option String} {isPretty : Bool} {dialect? : Option Dialect}
    {arguments : List String} (h : Options input? isPretty dialect? arguments) {flags : List Flag}
    (hflags : flags = [.input, .pretty, .dialect] ∨ flags = [.pretty, .dialect] ∧ input? = none) :
    ∃ settings, Setting.Makes flags arguments settings ∧ Setting.Means settings [] input? isPretty dialect? := by
  induction h with
  | nil => exact ⟨[], Setting.makes_nil, Setting.means_nil⟩
  | pretty h rest ih =>
    obtain ⟨settings, hmakes, hmeans⟩ := ih hflags
    exact ⟨_, (Setting.makes_pretty (hflags.imp_right And.left) h).append hmakes, hmeans.cons_pretty⟩
  | dialect h rest ih =>
    obtain ⟨settings, hmakes, hmeans⟩ := ih hflags
    exact ⟨_, (Setting.makes_dialect (hflags.imp_right And.left) h).append hmakes, hmeans.cons_dialect _⟩
  | joined h rest ih =>
    obtain ⟨settings, hmakes, hmeans⟩ := ih hflags
    exact ⟨_, (Setting.makes_joined (hflags.imp_right And.left) h).append hmakes,
      (hmeans.cons_dialect _).cons_pretty⟩
  | input text rest ih =>
    rcases hflags with rfl | ⟨-, hnone⟩
    · obtain ⟨settings, hmakes, hmeans⟩ := ih (.inl rfl)
      exact ⟨_, (Setting.makes_input text).append hmakes, hmeans.cons_input text⟩
    · cases hnone

namespace Request

theorem settings?_of_means {flags : List Flag} {arguments : List String} {settings : List Setting}
    {texts : List String} {input? : Option String} {isPretty : Bool} {dialect? : Option Dialect}
    (h : Setting.ofArguments? flags arguments = some settings)
    (hmeans : Setting.Means settings texts input? isPretty dialect?) : settings? flags arguments = some settings := by
  rw [settings?, h, Option.filter_some, if_pos hmeans.once]

section Convert
variable {isPretty : Bool} {dialect? : Option Dialect} {options : List String}

theorem ofSubcommand?_convert {settings : List Setting} {texts : List String}
    (h : Setting.ofArguments? [.pretty, .dialect] options = some settings)
    (hmeans : Setting.Means settings texts none isPretty dialect?) : ofSubcommand? "convert" options =
      (atMostOne? texts).map (.convert · isPretty (dialect?.getD .plain)) := by
  simp only [ofSubcommand?, settings?_of_means h hmeans, Option.bind_eq_bind, Option.bind_some, hmeans.words,
    hmeans.pretty, hmeans.dialect?_eq, hmeans.help]
  cases atMostOne? texts <;> rfl

theorem ofArguments?_convert (h : Options none isPretty dialect? options) :
    ofArguments? ("convert" :: options) = some (.convert none isPretty (dialect?.getD .plain)) := by
  obtain ⟨settings, hmakes, hmeans⟩ := h.exists_settings (.inr ⟨rfl, rfl⟩)
  rw [ofArguments?, if_neg (by decide), if_neg (by decide), ofSubcommand?_convert hmakes.ofArguments? hmeans]
  rfl

theorem ofArguments?_convert_word (h : Options none isPretty dialect? options) (query : String) :
    ofArguments? ("convert" :: (options ++ ["--", query])) =
      some (.convert (some query) isPretty (dialect?.getD .plain)) := by
  obtain ⟨settings, hmakes, hmeans⟩ := h.exists_settings (.inr ⟨rfl, rfl⟩)
  rw [ofArguments?, if_neg (by decide), if_neg (by decide),
    ofSubcommand?_convert (hmakes.ofArguments?_word query) (hmeans.append_word query)]
  rfl

theorem ofArguments?_batch {input? : Option String} (h : Options input? isPretty dialect? options) :
    ofArguments? ("batch" :: options) = some (.batch input? isPretty (dialect?.getD .plain)) := by
  obtain ⟨settings, hmakes, hmeans⟩ := h.exists_settings (.inl rfl)
  have hsettings := settings?_of_means hmakes.ofArguments? hmeans
  rw [ofArguments?, if_neg (by decide), if_neg (by decide)]
  simp only [ofSubcommand?, hsettings, Option.bind_eq_bind, Option.bind_some, hmeans.words, hmeans.input,
    hmeans.pretty, hmeans.dialect?_eq, hmeans.help]
  rfl

end Convert

theorem ofArguments?_tokenize_word (query : String) :
    ofArguments? ["tokenize", "--", query] = some (.tokenize (some query)) := by
  have hsettings : settings? [] ["--", query] = some [.word query] := by
    rw [settings?, Setting.ofArguments?, if_pos rfl]
    rfl
  rw [ofArguments?, if_neg (by decide), if_neg (by decide)]
  simp only [ofSubcommand?, hsettings, Option.bind_eq_bind, Option.bind_some]
  rfl

end Request

/-! ## Input that ends in line ends -/

theorem Text.trimLineEnds_append {query ends : Text} (hquery : ∀ c ∈ query.getLast?, c ≠ '\n' ∧ c ≠ '\r')
    (hends : ∀ c ∈ ends, c = '\n' ∨ c = '\r') : trimLineEnds (query ++ ends) = query := by
  have hreverse : ∀ c ∈ ends.reverse, (decide (c = '\n') || decide (c = '\r')) = true := by
    intro c hc
    simpa using hends c (List.mem_reverse.1 hc)
  have hhead : ∀ c ∈ query.reverse.head?, ¬(decide (c = '\n') || decide (c = '\r')) = true := by
    intro c hc
    rw [List.head?_reverse] at hc
    simpa using hquery c hc
  have hdrop : (query.reverse.dropWhile fun c => c = '\n' || c = '\r') = query.reverse := by
    cases h : query.reverse with
    | nil => rfl
    | cons c rest =>
      rw [h] at hhead
      exact List.dropWhile_cons_of_neg (hhead c rfl)
  rw [trimLineEnds, List.reverse_append, List.dropWhile_append_of_pos hreverse, hdrop, List.reverse_reverse]

theorem fromUTF8?_toUTF8 (text : String) : String.fromUTF8? text.toUTF8 = some text := by
  unfold String.fromUTF8?
  rw [String.toUTF8_eq_toByteArray, dif_pos text.isValidUTF8]
  rfl

/-- Line ends at the end of standard input are not part of the text. -/
theorem Request.inputText_stdin {query ends : String}
    (hquery : ∀ c ∈ query.toList.getLast?, c ≠ '\n' ∧ c ≠ '\r')
    (hends : ∀ c ∈ ends.toList, c = '\n' ∨ c = '\r') : inputText none (query ++ ends).toUTF8 = .ok query := by
  rw [inputText, fromUTF8?_toUTF8]
  simp only [String.toList_append, Text.trimLineEnds_append hquery hends, String.ofList_toList]

/-! ## Runs -/

theorem run_of_request {clock : Instant} {arguments : List String} {request : Request} {stdin : ByteArray}
    (h : Request.ofArguments? arguments = some request) : run clock arguments stdin = request.run clock stdin := by
  rw [run, h]

/-- A query behind `--` or in `--input` gives the outcome that it gives from standard input, and
neither the spelling nor the order of the options matters. -/
theorem run_argument_eq_run_stdin (clock : Instant) {isPretty : Bool} {dialect? : Option Dialect}
    {options others arguments : List String} {query ends : String} (unread : ByteArray)
    (hoptions : Options none isPretty dialect? options) (hothers : Options none isPretty dialect? others)
    (harguments : Options (some query) isPretty dialect? arguments)
    (hquery : ∀ c ∈ query.toList.getLast?, c ≠ '\n' ∧ c ≠ '\r')
    (hends : ∀ c ∈ ends.toList, c = '\n' ∨ c = '\r') :
    let dialect := dialect?.getD .plain
    let stdin := (query ++ ends).toUTF8
    let converted := Outcome.success (((FilterQuery.convert clock query).toJson dialect).render isPretty ++ "\n")
    let tokenized := Outcome.success (Report.tokenize query)
    let batched := Outcome.ofExcept "\n" (Report.batch clock dialect isPretty (some query))
    (run clock ("convert" :: (options ++ ["--", query])) unread = converted ∧
      run clock ("convert" :: others) stdin = converted) ∧
    (run clock ["tokenize", "--", query] unread = tokenized ∧ run clock ["tokenize"] stdin = tokenized) ∧
    (run clock ("batch" :: arguments) unread = batched ∧ run clock ("batch" :: others) stdin = batched) := by
  intro dialect stdin converted tokenized batched
  have hinput : Request.inputText none stdin = .ok query := Request.inputText_stdin hquery hends
  have htokenized : Outcome.ofExcept "" (.ok (Report.tokenize query)) = tokenized := by
    rw [Outcome.ofExcept, String.append_empty]
  refine ⟨⟨?_, ?_⟩, ⟨?_, ?_⟩, ⟨?_, ?_⟩⟩
  · rw [run_of_request (Request.ofArguments?_convert_word hoptions query)]
    rfl
  · rw [run_of_request (Request.ofArguments?_convert hothers), Request.run, hinput]
    rfl
  · rw [run_of_request (Request.ofArguments?_tokenize_word query)]
    exact htokenized
  · have hrequest : Request.ofArguments? ["tokenize"] = some (.tokenize none) := rfl
    rw [run_of_request hrequest, Request.run, hinput]
    exact htokenized
  · rw [run_of_request (Request.ofArguments?_batch harguments)]
    rfl
  · rw [run_of_request (Request.ofArguments?_batch hothers), Request.run, hinput]
    rfl

/-- A query that looks like an option, has a line end inside, and is not JSON. -/
theorem run_argument_eq_run_stdin_hyphen :
    let query := "-x\n=1"
    let stdin := (query ++ "\r\n").toUTF8
    (Options none true (some .mongo) ["-pd", "mongo"] ∧ Options none true (some .mongo) ["--dialect=mongo", "-p"] ∧
      Options (some query) true (some .mongo) ["-p", "--input=" ++ query, "-dmongo"]) ∧
    ∀ clock unread,
      run clock ["convert", "-pd", "mongo", "--", query] unread =
        run clock ["convert", "--dialect=mongo", "-p"] stdin ∧
      run clock ["tokenize", "--", query] unread = run clock ["tokenize"] stdin ∧
      run clock ["batch", "-p", "--input=" ++ query, "-dmongo"] unread =
        run clock ["batch", "--dialect=mongo", "-p"] stdin := by
  intro query stdin
  have hjoined : ["-pd", "mongo"] ∈ joinedSpellings Dialect.mongo.name := by decide
  have hlong : ["--dialect=mongo"] ∈ dialectSpellings Dialect.mongo.name := by decide
  have hattached : ["-dmongo"] ∈ dialectSpellings Dialect.mongo.name := by decide
  have hpretty : ["-p"] ∈ prettySpellings := by decide
  have hoptions : Options none true (some .mongo) ["-pd", "mongo"] := .joined hjoined .nil
  have hothers : Options none true (some .mongo) ["--dialect=mongo", "-p"] := .dialect hlong (.pretty hpretty .nil)
  have harguments : Options (some query) true (some .mongo) ["-p", "--input=" ++ query, "-dmongo"] :=
    .pretty hpretty (.input query (.dialect hattached .nil))
  have hquery : ∀ c ∈ query.toList.getLast?, c ≠ '\n' ∧ c ≠ '\r' := by simp [query]
  have hends : ∀ c ∈ "\r\n".toList, c = '\n' ∨ c = '\r' := by simp
  refine ⟨⟨hoptions, hothers, harguments⟩, fun clock unread => ?_⟩
  obtain ⟨⟨hconvert, hconvert'⟩, ⟨htokenize, htokenize'⟩, ⟨hbatch, hbatch'⟩⟩ :=
    run_argument_eq_run_stdin clock unread hoptions hothers harguments hquery hends
  exact ⟨hconvert.trans hconvert'.symm, htokenize.trans htokenize'.symm, hbatch.trans hbatch'.symm⟩

end FilterQuery
