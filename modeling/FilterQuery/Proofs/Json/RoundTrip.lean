import FilterQuery.Command.Report
import FilterQuery.Proofs.Json.Number
import FilterQuery.Proofs.Mention
/-!
# Written values are read back

The reader takes the text of a value, in either layout and with anything behind it, for
the value that `Json.reread` says: strings come back as they were, whatever characters are
escaped in them, integers too, and a finite double as some double. `Json.readsBack` is the
step for a value in a text, by induction on the value, and `Json.read?_render` is about a
whole text.
-/

namespace FilterQuery

namespace Json

/-! ## Spaces -/

theorem skip_append {spaces : Text} (h : ∀ c ∈ spaces, isSpace c = true) (rest : Text) :
    skip (spaces ++ rest) = skip rest := List.dropWhile_append_of_pos h

theorem skip_cons {c : Char} (h : isSpace c = false) (rest : Text) : skip (c :: rest) = c :: rest := by
  simp [skip, h]

/-! ## Strings -/

theorem hexUnit?_control {n : Nat} (h : n < 0x20) (rest : Text) :
    hexUnit? ('0' :: '0' :: hexDigit (n / 16) :: hexDigit (n % 16) :: rest) = some (n, rest) := by
  have hvalue : ∀ n < 0x20, Text.natValue? 16 ['0', '0', hexDigit (n / 16), hexDigit (n % 16)] = some n := by
    decide
  rw [hexUnit?, hvalue n h]
  rfl

/-- A character is read as it was written. -/
theorem readString?_escape (fuel : Nat) (c : Char) (rest : Text) :
    readString? (fuel + 1) (escape c ++ rest) = (readString? fuel rest).map fun (s, rest) => (c :: s, rest) := by
  have hbind : ∀ c : Char, ((readString? fuel rest).bind fun (s, rest) => some (c :: s, rest)) =
      (readString? fuel rest).map fun (s, rest) => (c :: s, rest) := by
    intro c
    cases readString? fuel rest <;> rfl
  unfold escape
  split
  · next h => subst h; simpa [readString?, unescape?] using hbind _
  split
  · next h => subst h; simpa [readString?, unescape?] using hbind _
  split
  · next h => subst h; simpa [readString?, unescape?] using hbind _
  split
  · next h => subst h; simpa [readString?, unescape?] using hbind _
  split
  · next h => subst h; simpa [readString?, unescape?] using hbind _
  split
  · next h => subst h; simpa [readString?, unescape?] using hbind _
  split
  · next h => subst h; simpa [readString?, unescape?] using hbind _
  split
  · next h =>
    have hunicode : unicodeEscape? ('0' :: '0' :: hexDigit (c.toNat / 16) :: hexDigit (c.toNat % 16) :: rest) =
        some (c, rest) := by
      have hunit : c.toNat < 0xD800 ∨ 0xDFFF < c.toNat := by omega
      simp only [unicodeEscape?, hexUnit?_control h, Option.bind_eq_bind, Option.bind_some, if_pos hunit,
        Char.ofNat_toNat]
    simpa [readString?, hunicode] using hbind c
  · next hquote hbackslash _ _ _ _ _ hcontrol =>
    simpa [readString?, hquote, hbackslash, hcontrol] using hbind c

theorem readString?_append {s : Text} {fuel : Nat} (h : s.length < fuel) (rest : Text) :
    readString? fuel (s.flatMap escape ++ '"' :: rest) = some (s, rest) := by
  induction s generalizing fuel with
  | nil =>
    obtain ⟨fuel, rfl⟩ := Nat.exists_eq_add_of_lt h
    rfl
  | cons c s ih =>
    obtain ⟨fuel, rfl⟩ : ∃ n, fuel = n + 1 := ⟨fuel - 1, by omega⟩
    rw [List.flatMap_cons, List.append_assoc, readString?_escape, ih (by simpa using h)]
    rfl

theorem length_le_flatMap_escape (s : Text) : s.length ≤ (s.flatMap escape).length := by
  have hone : ∀ c, 1 ≤ (escape c).length := by
    intro c
    rcases escape_cases c with h | ⟨marks, h, -⟩ <;> simp [h]
  induction s with
  | nil => exact Nat.zero_le _
  | cons c s ih =>
    have hc := hone c
    rw [List.flatMap_cons, List.length_append, List.length_cons]
    omega

/-! ## Steps of the reader -/

theorem ne_of_minus_or_digit {c : Char} (h : c = '-' ∨ c.isDigit = true) (mark : Char) (hminus : mark ≠ '-')
    (hdigit : mark.isDigit = false) : c ≠ mark := by
  rintro rfl
  rcases h with h | h
  · exact hminus h
  · rw [hdigit] at h
    cases h

theorem isSpace_of_minus_or_digit {c : Char} (h : c = '-' ∨ c.isDigit = true) : isSpace c = false := by
  have hne : ∀ mark ∈ [' ', '\t', '\n', '\r'], c ≠ mark := by
    intro mark hm
    have hplain : ∀ mark ∈ [' ', '\t', '\n', '\r'], mark ≠ '-' ∧ mark.isDigit = false := by simp
    exact ne_of_minus_or_digit h mark (hplain mark hm).1 (hplain mark hm).2
  simp [isSpace, hne]

section Steps
variable {fuel room : Nat}

theorem readValue?_append_spaces {spaces : Text} (h : ∀ c ∈ spaces, isSpace c = true) (text : Text) :
    readValue? fuel room (spaces ++ text) = readValue? fuel room text := by
  cases fuel with
  | zero => rw [readValue?, readValue?]
  | succ fuel => rw [readValue?, readValue?, skip_append h]

theorem readValue?_number {c : Char} (h : c = '-' ∨ c.isDigit = true) (text : Text) :
    readValue? (fuel + 1) room (c :: text) = (readNumber? (c :: text)).map fun (n, rest) => (number n, rest) := by
  have hmark := ne_of_minus_or_digit h
  rw [readValue?, skip_cons (isSpace_of_minus_or_digit h)]
  split
  · next heq => exact absurd (List.cons.inj heq).1 (hmark 'n' (by decide) (by decide))
  · next heq => exact absurd (List.cons.inj heq).1 (hmark 't' (by decide) (by decide))
  · next heq => exact absurd (List.cons.inj heq).1 (hmark 'f' (by decide) (by decide))
  · next heq => exact absurd (List.cons.inj heq).1 (hmark '"' (by decide) (by decide))
  · next heq => exact absurd (List.cons.inj heq).1 (hmark '[' (by decide) (by decide))
  · next heq => exact absurd (List.cons.inj heq).1 (hmark '\x7b' (by decide) (by decide))
  · rfl

theorem readValue?_items {c : Char} (hspace : isSpace c = false) (hc : c ≠ ']') {spaces : Text}
    (hspaces : ∀ c ∈ spaces, isSpace c = true) (text : Text) :
    readValue? (fuel + 1) (room + 1) ('[' :: (spaces ++ c :: text)) =
      (readItems? fuel room (c :: text)).map fun (items, rest) => (array items, rest) := by
  rw [readValue?, skip_cons rfl]
  simp only [skip_append hspaces, skip_cons hspace]
  split
  · next hroom => exact absurd hroom (Nat.succ_ne_zero room)
  · next heq => exact absurd (List.cons.inj heq).1 hc
  · next hroom _ =>
    obtain rfl := Nat.succ.inj hroom
    rfl

theorem readValue?_members {spaces : Text} (hspaces : ∀ c ∈ spaces, isSpace c = true) (text : Text) :
    readValue? (fuel + 1) (room + 1) ('\x7b' :: (spaces ++ '"' :: text)) =
      (readMembers? fuel room ('"' :: text)).map fun (members, rest) => (ofMembers members, rest) := by
  rw [readValue?, skip_cons rfl]
  have hquote : skip ('"' :: text) = '"' :: text := skip_cons rfl text
  simp only [skip_append hspaces, hquote]
  split
  · next hroom => exact absurd hroom (Nat.succ_ne_zero room)
  · next heq => exact absurd (List.cons.inj heq).1 (by decide)
  · next hroom _ =>
    obtain rfl := Nat.succ.inj hroom
    rfl

end Steps

/-! ## What is read back -/

end Json

/-- The number that the reader takes the text of a number for. -/
def Number.reread (n : Number) : Number := ((Json.readNumber? (Json.numberText n)).map (·.1)).getD n

/-- The number has a text of its own: an integer of 64 bits, signed or not, or a finite double. -/
def Number.IsWritten : Number → Prop
  | .integer n => -2 ^ 63 ≤ n ∧ n < 2 ^ 64
  | .real d => d.isFinite = true

namespace Json

mutual

/-- The value that the reader takes the text of a value for: doubles may be others, and
members are put in order. -/
def reread : Json → Json
  | number n => number n.reread
  | array items => array (rereadItems items)
  | object members => ofMembers (rereadMembers members)
  | value => value

/-- The items as they are read back. -/
def rereadItems : List Json → List Json
  | [] => []
  | item :: items => reread item :: rereadItems items

/-- The members as they are read back, in the order of their text. -/
def rereadMembers : List (String × Json) → List (String × Json)
  | [] => []
  | (name, value) :: members => (name, reread value) :: rereadMembers members

end

theorem rereadItems_eq_map (items : List Json) : rereadItems items = items.map reread := by
  induction items with
  | nil => rfl
  | cons item items ih => rw [rereadItems, ih, List.map_cons]

/-- All numbers of the value have texts, and arrays and objects in it are nested at most `room` deep. -/
inductive Fits : (room : Nat) → Json → Prop where
  | null (room : Nat) : Fits room .null
  | bool (room : Nat) (b : Bool) : Fits room (.bool b)
  | number (room : Nat) {n : Number} (h : n.IsWritten) : Fits room (.number n)
  | string (room : Nat) (s : String) : Fits room (.string s)
  | array {room : Nat} {items : List Json} (h : ∀ item ∈ items, Fits room item) : Fits (room + 1) (.array items)
  | object {room : Nat} {members : List (String × Json)} (h : ∀ member ∈ members, Fits room member.2) :
      Fits (room + 1) (.object members)

/-- What a style puts between the parts of a value is read over. -/
structure Style.Spaced (style : Style) : Prop where
  lineBreak : ∀ depth, ∀ c ∈ style.lineBreak depth, isSpace c = true
  colon : ∃ spaces, style.colon = ':' :: spaces ∧ ∀ c ∈ spaces, isSpace c = true

theorem compactStyle_spaced : compactStyle.Spaced where
  lineBreak _ _ hc := absurd hc List.not_mem_nil
  colon := ⟨[], rfl, fun _ hc => absurd hc List.not_mem_nil⟩

theorem prettyStyle_spaced : prettyStyle.Spaced where
  lineBreak depth c hc := by
    rcases List.mem_cons.1 hc with rfl | hc
    · rfl
    · rw [(List.mem_replicate.1 hc).2]
      rfl
  colon := ⟨[' '], rfl, List.forall_mem_singleton.2 rfl⟩

/-- A value ends before the rest. -/
def EndsValue (rest : Text) : Prop := ∀ c ∈ rest.head?, isSpace c = true ∨ c = ',' ∨ c = ']' ∨ c = '\x7d'

theorem EndsValue.endsNumber {rest : Text} (h : EndsValue rest) : EndsNumber rest := by
  intro c hc
  rcases h c hc with h | rfl | rfl | rfl
  · simp only [isSpace, Bool.or_eq_true, decide_eq_true_eq] at h
    rcases h with ((rfl | rfl) | rfl) | rfl <;> decide
  · decide
  · decide
  · decide

theorem endsValue_append {spaces : Text} (h : ∀ c ∈ spaces, isSpace c = true) {rest : Text}
    (hrest : EndsValue rest) : EndsValue (spaces ++ rest) := by
  cases spaces with
  | nil => exact hrest
  | cons c spaces =>
    rintro d ⟨⟩
    exact .inl (h c List.mem_cons_self)

theorem endsValue_cons {c : Char} (h : c = ',' ∨ c = ']' ∨ c = '\x7d') (rest : Text) : EndsValue (c :: rest) := by
  rintro d ⟨⟩
  exact .inr h

end Json

/-! ## Numbers -/

namespace Json

theorem head_of_isWhole {whole : Text} (h : IsWhole whole) (negative : Bool) (rest : Text) :
    ∃ c text, (if negative then ['-'] else []) ++ (whole ++ rest) = c :: text ∧ (c = '-' ∨ c.isDigit = true) := by
  cases negative with
  | true => exact ⟨'-', whole ++ rest, rfl, .inl rfl⟩
  | false =>
    obtain ⟨c, digits, rfl⟩ := List.exists_cons_of_ne_nil h.ne_nil
    exact ⟨c, digits ++ rest, rfl, .inr (h.isDigit c List.mem_cons_self)⟩

theorem exists_numberText {n : Number} (h : n.IsWritten) :
    ∃ c text, numberText n = c :: text ∧ (c = '-' ∨ c.isDigit = true) := by
  cases n with
  | integer n =>
    obtain ⟨c, text, htext, hc⟩ := head_of_isWhole (isWhole_ofNat n.natAbs) (decide (n < 0)) []
    refine ⟨c, text, ?_, hc⟩
    simpa only [numberText, Text.ofInt, decide_eq_true_eq, List.append_nil] using htext
  | real d =>
    cases d with
    | nan => cases h
    | infinite negative => cases h
    | finite negative code =>
      obtain ⟨whole, fraction, exponent, htext, hwhole, -⟩ := exists_write negative code.isLt
      rw [numberText, htext]
      exact head_of_isWhole hwhole negative _

theorem readNumber?_numberText {n : Number} (h : n.IsWritten) {rest : Text} (hrest : EndsNumber rest) :
    readNumber? (numberText n ++ rest) = some (n.reread, rest) := by
  have hread : ∃ m, ∀ rest, EndsNumber rest → readNumber? (numberText n ++ rest) = some (m, rest) := by
    cases n with
    | integer n => exact ⟨.integer n, fun rest hrest => readNumber?_ofInt h.1 h.2 hrest⟩
    | real d =>
      cases d with
      | nan => cases h
      | infinite negative => cases h
      | finite negative code => exact exists_readNumber?_write negative code.isLt
  obtain ⟨m, hm⟩ := hread
  have hself : n.reread = m := by
    have hnil := hm [] nofun
    rw [List.append_nil] at hnil
    rw [Number.reread, hnil]
    rfl
  rw [hm rest hrest, hself]

/-- The text of a value begins with a mark of its own. -/
theorem exists_write_cons (style : Style) (depth : Nat) {room : Nat} {value : Json} (h : value.Fits room) :
    ∃ c text, write style depth value = c :: text ∧ isSpace c = false ∧ c ≠ ']' := by
  cases h with
  | null => exact ⟨_, _, rfl, by decide, by decide⟩
  | bool _ b =>
    cases b with
    | true => exact ⟨_, _, rfl, by decide, by decide⟩
    | false => exact ⟨_, _, rfl, by decide, by decide⟩
  | number _ h =>
    obtain ⟨c, text, htext, hc⟩ := exists_numberText h
    exact ⟨c, text, htext, isSpace_of_minus_or_digit hc, ne_of_minus_or_digit hc ']' (by decide) (by decide)⟩
  | string _ s => exact ⟨_, _, rfl, by decide, by decide⟩
  | @array _ items h => cases items <;> exact ⟨_, _, rfl, by decide, by decide⟩
  | @object _ members h =>
    rcases members with _ | ⟨⟨name, value⟩, members⟩ <;> exact ⟨_, _, rfl, by decide, by decide⟩

/-! ## Values -/

theorem readString?_quote (s : String) {fuel : Nat} (h : (quote s).length ≤ fuel + 1) (rest : Text) :
    readString? fuel (s.toList.flatMap escape ++ '"' :: rest) = some (s.toList, rest) := by
  have hlength := length_le_flatMap_escape s.toList
  apply readString?_append
  simp only [quote, List.length_cons, List.length_append, List.length_nil] at h
  omega

theorem isSpace_of_mem_nil : ∀ c ∈ ([] : Text), isSpace c = true := nofun

theorem skip_quote (name : String) {front : Text} (hfront : ∀ c ∈ front, isSpace c = true) (rest : Text) :
    skip (front ++ (quote name ++ rest)) = '"' :: (name.toList.flatMap escape ++ '"' :: rest) := by
  rw [skip_append hfront, quote, List.cons_append, skip_cons rfl, List.append_assoc, List.singleton_append]

section Values
variable {style : Style} {room : Nat} (hs : style.Spaced)

/-- A value is read back at any depth, by a reader with fuel enough, whatever stands behind it. -/
def ReadsBack (style : Style) (room : Nat) (value : Json) : Prop :=
  ∀ depth fuel rest, EndsValue rest → 2 * (write style depth value).length + 2 ≤ fuel →
    readValue? fuel room (write style depth value ++ rest) = some (value.reread, rest)

include hs

theorem readItems?_write {item : Json} {items : List Json} (h : ∀ value ∈ item :: items, ReadsBack style room value)
    {depth fuel : Nat} {front back : Text} (hfront : ∀ c ∈ front, isSpace c = true)
    (hback : ∀ c ∈ back, isSpace c = true) (rest : Text)
    (hfuel : 2 * (write style depth item ++ writeItems style depth items).length + 3 ≤ fuel) :
    readItems? fuel room (front ++ (write style depth item ++
        (writeItems style depth items ++ (back ++ ']' :: rest)))) =
      some (rereadItems (item :: items), rest) := by
  induction items generalizing item fuel front with
  | nil =>
    obtain ⟨fuel, rfl⟩ : ∃ n, fuel = n + 1 := ⟨fuel - 1, by omega⟩
    simp only [writeItems, List.append_nil, List.nil_append] at hfuel ⊢
    have hitem := h item List.mem_cons_self depth fuel (back ++ ']' :: rest)
      (endsValue_append hback (endsValue_cons (by simp) rest)) (by omega)
    have hskip : skip (back ++ ']' :: rest) = ']' :: rest := by rw [skip_append hback, skip_cons rfl]
    rw [readItems?, readValue?_append_spaces hfront, hitem, Option.bind_eq_bind, Option.bind_some]
    simp only [hskip]
    rfl
  | cons next items ih =>
    obtain ⟨fuel, rfl⟩ : ∃ n, fuel = n + 1 := ⟨fuel - 1, by omega⟩
    simp only [writeItems, List.length_append, List.length_cons] at hfuel
    have hitem := h item List.mem_cons_self depth fuel
      (writeItems style depth (next :: items) ++ (back ++ ']' :: rest)) (endsValue_cons (by simp) _) (by omega)
    have hfuel' : 2 * (write style depth next ++ writeItems style depth items).length + 3 ≤ fuel := by
      rw [List.length_append]
      omega
    have hrest := ih (fun value hm => h value (List.mem_cons_of_mem _ hm)) (hs.lineBreak depth) hfuel'
    have hskip : skip (writeItems style depth (next :: items) ++ (back ++ ']' :: rest)) =
        ',' :: (style.lineBreak depth ++ (write style depth next ++
          (writeItems style depth items ++ (back ++ ']' :: rest)))) := by
      rw [writeItems, List.cons_append, skip_cons rfl, List.append_assoc, List.append_assoc]
    rw [readItems?, readValue?_append_spaces hfront, hitem, Option.bind_eq_bind, Option.bind_some]
    simp only [hskip, hrest]
    rfl

/-- A name and its value are read off the text of members, and what stands behind them says
whether there are more. -/
theorem readMembers?_member {name : String} {value : Json} (h : ReadsBack style room value) {depth fuel : Nat}
    {front : Text} (hfront : ∀ c ∈ front, isSpace c = true) {rest : Text} (hrest : EndsValue rest)
    (hfuel : 2 * (quote name ++ style.colon ++ write style depth value).length + 2 ≤ fuel) :
    let text := front ++ (quote name ++ (style.colon ++ (write style depth value ++ rest)))
    (∀ tail, skip rest = ',' :: tail → readMembers? (fuel + 1) room text =
        (readMembers? fuel room tail).map fun (members, rest) => ((name, value.reread) :: members, rest)) ∧
      (∀ tail, skip rest = '\x7d' :: tail →
        readMembers? (fuel + 1) room text = some ([(name, value.reread)], tail)) := by
  intro text
  obtain ⟨spaces, hcolon, hspaces⟩ := hs.colon
  simp only [List.length_append] at hfuel
  have hlength : (quote name).length ≤ fuel + 1 := by omega
  have hname := readString?_quote name hlength (style.colon ++ (write style depth value ++ rest))
  have hskip : skip (style.colon ++ (write style depth value ++ rest)) =
      ':' :: (spaces ++ (write style depth value ++ rest)) := by
    rw [hcolon, List.cons_append, skip_cons rfl]
  have hvalue : readValue? fuel room (spaces ++ (write style depth value ++ rest)) = some (value.reread, rest) := by
    rw [readValue?_append_spaces hspaces]
    exact h depth fuel rest hrest (by omega)
  constructor
  · intro tail htail
    simp only [text, readMembers?, skip_quote name hfront, hname, hskip, hvalue, htail, Option.bind_eq_bind,
      Option.bind_some, String.ofList_toList]
  · intro tail htail
    simp only [text, readMembers?, skip_quote name hfront, hname, hskip, hvalue, htail, Option.bind_eq_bind,
      Option.bind_some, String.ofList_toList]

theorem readMembers?_write {name : String} {value : Json} {members : List (String × Json)}
    (h : ∀ member ∈ (name, value) :: members, ReadsBack style room member.2)
    {depth fuel : Nat} {front back : Text} (hfront : ∀ c ∈ front, isSpace c = true)
    (hback : ∀ c ∈ back, isSpace c = true) (rest : Text)
    (hfuel : 2 * (quote name ++ style.colon ++ write style depth value ++
      writeMembers style depth members).length + 3 ≤ fuel) :
    readMembers? fuel room (front ++ (quote name ++ (style.colon ++ (write style depth value ++
        (writeMembers style depth members ++ (back ++ '\x7d' :: rest)))))) =
      some (rereadMembers ((name, value) :: members), rest) := by
  induction members generalizing name value fuel front with
  | nil =>
    obtain ⟨fuel, rfl⟩ : ∃ n, fuel = n + 1 := ⟨fuel - 1, by omega⟩
    simp only [writeMembers, List.append_nil, List.nil_append] at hfuel ⊢
    have hends : EndsValue (back ++ '\x7d' :: rest) := endsValue_append hback (endsValue_cons (by simp) rest)
    have hskip : skip (back ++ '\x7d' :: rest) = '\x7d' :: rest := by rw [skip_append hback, skip_cons rfl]
    have hvalue : ReadsBack style room value := h (name, value) List.mem_cons_self
    exact (readMembers?_member hs hvalue hfront hends (by omega)).2 rest hskip
  | cons next members ih =>
    obtain ⟨nextName, nextValue⟩ := next
    obtain ⟨fuel, rfl⟩ : ∃ n, fuel = n + 1 := ⟨fuel - 1, by omega⟩
    have hends : EndsValue (writeMembers style depth ((nextName, nextValue) :: members) ++ (back ++ '\x7d' :: rest)) :=
      endsValue_cons (by simp) _
    have hskip : skip (writeMembers style depth ((nextName, nextValue) :: members) ++ (back ++ '\x7d' :: rest)) =
        ',' :: (style.lineBreak depth ++ (quote nextName ++ (style.colon ++ (write style depth nextValue ++
          (writeMembers style depth members ++ (back ++ '\x7d' :: rest)))))) := by
      rw [writeMembers, List.cons_append, skip_cons rfl]
      simp only [List.append_assoc]
    simp only [writeMembers, List.length_append, List.length_cons] at hfuel
    have hmember : 2 * (quote name ++ style.colon ++ write style depth value).length + 2 ≤ fuel := by
      simp only [List.length_append]
      omega
    have hmembers : 2 * (quote nextName ++ style.colon ++ write style depth nextValue ++
        writeMembers style depth members).length + 3 ≤ fuel := by
      simp only [List.length_append]
      omega
    have hvalue : ReadsBack style room value := h (name, value) List.mem_cons_self
    have hrest := ih (fun member hm => h member (List.mem_cons_of_mem _ hm)) (hs.lineBreak depth) hmembers
    rw [(readMembers?_member hs hvalue hfront hends hmember).1 _ hskip, hrest]
    rfl

theorem readsBack_array {items : List Json} (hfits : ∀ item ∈ items, item.Fits room)
    (h : ∀ item ∈ items, ReadsBack style room item) : ReadsBack style (room + 1) (array items) := by
  intro depth fuel rest _ hfuel
  obtain ⟨fuel, rfl⟩ : ∃ n, fuel = n + 1 := ⟨fuel - 1, by omega⟩
  cases items with
  | nil => rfl
  | cons item items =>
    obtain ⟨c, text, htext, hspace, hc⟩ := exists_write_cons style (depth + 1) (hfits item List.mem_cons_self)
    have hitems : 2 * (write style (depth + 1) item ++ writeItems style (depth + 1) items).length + 3 ≤ fuel := by
      simp only [write, List.length_append, List.length_cons, List.length_nil] at hfuel ⊢
      omega
    have hread := readItems?_write hs h isSpace_of_mem_nil (hs.lineBreak depth) rest hitems
    have hwrite : write style depth (array (item :: items)) ++ rest =
        '[' :: (style.lineBreak (depth + 1) ++ c :: (text ++ (writeItems style (depth + 1) items ++
          (style.lineBreak depth ++ ']' :: rest)))) := by
      simp [write, htext]
    rw [List.nil_append, htext, List.cons_append] at hread
    rw [hwrite, readValue?_items hspace hc (hs.lineBreak _), hread]
    rfl

theorem readsBack_object {members : List (String × Json)} (h : ∀ member ∈ members, ReadsBack style room member.2) :
    ReadsBack style (room + 1) (object members) := by
  intro depth fuel rest _ hfuel
  obtain ⟨fuel, rfl⟩ : ∃ n, fuel = n + 1 := ⟨fuel - 1, by omega⟩
  cases members with
  | nil => rfl
  | cons member members =>
    obtain ⟨name, value⟩ := member
    have hmembers : 2 * (quote name ++ style.colon ++ write style (depth + 1) value ++
        writeMembers style (depth + 1) members).length + 3 ≤ fuel := by
      simp only [write, List.length_append, List.length_cons, List.length_nil] at hfuel ⊢
      omega
    have hread := readMembers?_write hs h isSpace_of_mem_nil (hs.lineBreak depth) rest hmembers
    have hwrite : write style depth (object ((name, value) :: members)) ++ rest =
        '\x7b' :: (style.lineBreak (depth + 1) ++ (quote name ++ (style.colon ++
          (write style (depth + 1) value ++ (writeMembers style (depth + 1) members ++
            (style.lineBreak depth ++ '\x7d' :: rest)))))) := by
      simp [write]
    have hquote : ∀ text, quote name ++ text = '"' :: (name.toList.flatMap escape ++ '"' :: text) := by
      intro text
      simp [quote]
    rw [List.nil_append, hquote] at hread
    rw [hwrite, hquote, readValue?_members (hs.lineBreak _), hread]
    rfl

/-- A value is read back as what the reader takes it for. -/
theorem readsBack {value : Json} (h : value.Fits room) : ReadsBack style room value := by
  induction value using Json.induction generalizing room with
  | null =>
    intro depth fuel rest hrest hfuel
    obtain ⟨fuel, rfl⟩ : ∃ n, fuel = n + 1 := ⟨fuel - 1, by omega⟩
    rfl
  | bool b =>
    intro depth fuel rest hrest hfuel
    obtain ⟨fuel, rfl⟩ : ∃ n, fuel = n + 1 := ⟨fuel - 1, by omega⟩
    cases b <;> rfl
  | number n =>
    intro depth fuel rest hrest hfuel
    obtain ⟨fuel, rfl⟩ : ∃ n, fuel = n + 1 := ⟨fuel - 1, by omega⟩
    cases h with
    | number _ h =>
      have hread := readNumber?_numberText h hrest.endsNumber
      obtain ⟨c, text, htext, hc⟩ := exists_numberText h
      rw [htext, List.cons_append] at hread
      rw [write, htext, List.cons_append, readValue?_number hc, hread]
      rfl
  | string s =>
    intro depth fuel rest hrest hfuel
    obtain ⟨fuel, rfl⟩ : ∃ n, fuel = n + 1 := ⟨fuel - 1, by omega⟩
    rw [write] at hfuel
    have hlength : (quote s).length ≤ fuel + 1 := by omega
    have hskip := skip_quote s isSpace_of_mem_nil rest
    rw [List.nil_append] at hskip
    rw [write, readValue?, hskip]
    simp only [readString?_quote s hlength, Option.map_some, String.ofList_toList]
    rfl
  | array items ih =>
    cases h with
    | array hitems => exact readsBack_array hs hitems fun item hm => ih item hm (hitems item hm)
  | object members ih =>
    cases h with
    | object hmembers => exact readsBack_object hs fun member hm => ih member hm (hmembers member hm)

end Values

/-- The text of a value, in one line or indented, is read back whole. -/
theorem read?_render (isPretty : Bool) {value : Json} (h : value.Fits maxDepth) :
    read? (value.render isPretty).toList = some value.reread := by
  have hread : ∀ {style : Style} (hs : style.Spaced), read? (write style 0 value) = some value.reread := by
    intro style hs
    have hvalue := readsBack hs h 0 (2 * (write style 0 value).length + 2) [] nofun le_rfl
    rw [List.append_nil] at hvalue
    rw [read?, hvalue]
    rfl
  cases isPretty with
  | true => simpa [render, pretty] using hread prettyStyle_spaced
  | false => simpa [render, compact] using hread compactStyle_spaced

end Json

end FilterQuery
