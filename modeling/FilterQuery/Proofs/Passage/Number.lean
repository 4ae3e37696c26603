import FilterQuery.Proofs.Leak
/-!
# Passages without numbers

Which numbers its keys have makes no difference to what is done with a passage: the tiers
and the shapes go by what the pieces show. `Passage.unnumbered` forgets the numbers.
`Passage.unnumbered_rewrite` says that rewriting does the same from any register on, and
`Passage.compileWithin_congr` that passages alike but for numbers compile to the same tree,
if they do not leak.
-/

namespace FilterQuery

/-! ## Passages with other pieces -/

section Map
variable {f : Piece → Piece} (hf : ∀ a, (f a).view = a.view)
include hf

theorem isInside_map (opening closing : Char) :
    isInside Piece.view opening closing ∘ f = isInside Piece.view opening closing := by
  funext a
  simp [isInside, hf]

theorem map_view_map (p : Passage) : (p.map f).map Piece.view = p.map Piece.view := by
  simp [Function.comp_def, hf]

theorem enclosed?_map (opening closing : Char) (p : Passage) :
    enclosed? Piece.view opening closing (p.map f) =
      (enclosed? Piece.view opening closing p).map (Prod.map (List.map f) (List.map f)) := by
  cases p with
  | nil => rfl
  | cons a p =>
    rw [List.map_cons, enclosed?, enclosed?, List.dropWhile_map, List.takeWhile_map, isInside_map hf]
    cases p.dropWhile (isInside Piece.view opening closing) with
    | nil => rfl
    | cons b after =>
      simp only [List.map_cons, hf]
      split
      · simp
      · rfl

theorem segment?_map (isSeparator : Option Char → Bool) (good : List (Option Char) → Bool) (p : Passage) :
    segment? Piece.view isSeparator good (p.map f) =
      (segment? Piece.view isSeparator good p).map (Prod.map (List.map f) (List.map f)) := by
  have htest : (fun a : Piece => ! isSeparator a.view) ∘ f = fun a => ! isSeparator a.view := by
    funext a
    simp [hf]
  simp only [segment?]
  rw [List.dropWhile_map, List.takeWhile_map, htest, map_view_map hf]
  split <;> rfl

/-- A tier takes off the front what it takes off when the pieces show the same. -/
theorem Tier.front?_map (tier : Tier) (p : Passage) :
    tier.front? Piece.view (p.map f) = (tier.front? Piece.view p).map (Prod.map (List.map f) (List.map f)) := by
  cases tier with
  | literal quote => exact enclosed?_map hf quote quote p
  | group =>
    rw [front?, front?, enclosed?_map hf]
    cases enclosed? Piece.view '(' ')' p with
    | none => rfl
    | some cut => by_cases h : 2 < cut.1.length <;> simp [Option.filter_some, h]
  | comparison symbol => exact segment?_map hf _ _ p
  | conjunction => exact segment?_map hf _ _ p

theorem Tier.search?_map (tier : Tier) (p : Passage) :
    tier.search? Piece.view (p.map f) = (tier.search? Piece.view p).map (Cut.map (List.map f)) := by
  induction p with
  | nil => rfl
  | cons a p ih =>
    have hfront := front?_map hf tier (a :: p)
    rw [List.map_cons] at hfront ⊢
    rw [search?_cons, search?_cons, hfront, ih]
    cases tier.front? Piece.view (a :: p) with
    | some cut => rfl
    | none => cases tier.search? Piece.view p <;> rfl

end Map

namespace Passage

/-! ## Shapes -/

section Map
variable {f : Piece → Piece} (hf : ∀ a, (f a).view = a.view)
include hf

theorem isBlank_map : Piece.isBlank ∘ f = Piece.isBlank := by
  funext a
  simp [Piece.isBlank, hf]

theorem text?_map (p : Passage) : text? (p.map f) = text? p := by
  induction p with
  | nil => rfl
  | cons a p ih => rw [List.map_cons, text?_cons, text?_cons, hf, ih]

theorem trim_map (p : Passage) : trim (p.map f) = (trim p).map f := by
  simp only [trim, List.dropWhile_map, ← List.map_reverse, isBlank_map hf]

theorem split_map (c : Char) (p : Passage) : split c (p.map f) = (split c p).map (List.map f) := by
  unfold split
  induction p with
  | nil => rfl
  | cons a p ih =>
    obtain ⟨x, xs, hx⟩ := List.exists_cons_of_ne_nil
      (List.splitOnP_ne_nil (fun piece : Piece => decide (piece.view = some c)) p)
    rw [hx] at ih
    rw [List.map_cons, List.splitOnP_cons_eq_if_modifyHead, List.splitOnP_cons_eq_if_modifyHead, hf, ih, hx]
    split <;> simp

theorem between?_map (first last : Char) (p : Passage) :
    between? first last (p.map f) = (between? first last p).map (List.map f) := by
  cases p with
  | nil => rfl
  | cons a p =>
    have hlast : (p.map f).getLast?.bind Piece.view = p.getLast?.bind Piece.view := by
      rw [List.getLast?_map]
      cases p.getLast? with
      | none => rfl
      | some b => exact hf b
    rw [List.map_cons, between?, between?, hf, hlast, ← List.map_dropLast, map_view_map hf]
    split <;> rfl

theorem quoted?_map (p : Passage) : quoted? (p.map f) = (quoted? p).map (List.map f) := by
  rw [quoted?, quoted?, between?_map hf, between?_map hf]
  cases between? '\'' '\'' p <;> rfl

theorem list?_map (p : Passage) : list? (p.map f) = (list? p).map (List.map (List.map f)) := by
  rw [list?, list?, between?_map hf]
  cases between? '[' ']' p with
  | none => rfl
  | some content =>
    simp only [Option.map_some, List.map_eq_nil_iff, split_map hf]
    split
    · rfl
    · simp [trim_map hf]

theorem cut?_map (word : Text) (p : Passage) :
    cut? word (p.map f) = (cut? word p).map (Prod.map (List.map f) (List.map f)) := by
  induction p with
  | nil => rfl
  | cons a p ih =>
    have hviews := map_view_map hf (a :: p)
    rw [List.map_cons] at hviews ⊢
    unfold cut?
    rw [hviews, ih]
    split
    · simp [← List.map_drop, ← List.map_cons]
    · cases cut? word p <;> rfl

theorem operands?_map (word : Text) (p : Passage) :
    operands? word (p.map f) = (operands? word p).map (Prod.map (List.map f) (List.map f)) := by
  rw [operands?, operands?, cut?_map hf]
  cases cut? word p with
  | none => rfl
  | some cut =>
    simp only [Option.map_some, Prod.map, cut?_map hf]
    cases cut? word cut.2 <;> rfl

theorem comparison?_map (p : Passage) : comparison? (p.map f) = (comparison? p).map (Shape.map (List.map f)) := by
  rw [comparison?, comparison?]
  induction Comparison.all with
  | nil => rfl
  | cons c symbols ih =>
    rw [List.findSome?_cons, List.findSome?_cons, operands?_map hf, ih]
    cases operands? c.symbol p with
    | none => rfl
    | some sides => simp [Shape.map, trim_map hf]

theorem clauses?_map (p : Passage) : clauses? (p.map f) = (clauses? p).map (Shape.map (List.map f)) := by
  have hfind : (fun c : Connective => (p.map f).any (·.view = some c.symbol)) =
      fun c : Connective => p.any (·.view = some c.symbol) := by
    funext c
    simp [List.any_map, Function.comp_def, hf]
  rw [clauses?, clauses?, hfind]
  cases Connective.all.find? fun c => p.any (·.view = some c.symbol) with
  | none => rfl
  | some c => simp [Shape.map, split_map hf, trim_map hf]

/-- A passage whose pieces show the same has the same shape. -/
theorem shape_map (clock : Instant) (p : Passage) : shape clock (p.map f) = (shape clock p).map (List.map f) := by
  rw [shape, shape]
  simp only [text?_map hf, quoted?_map hf, list?_map hf, comparison?_map hf, clauses?_map hf]
  split
  · rfl
  · cases p.text?.bind clock.ofRelative? with
    | some instant => rfl
    | none =>
      cases quoted? p with
      | some content => rfl
      | none =>
        cases list? p with
        | some items => rfl
        | none =>
          cases comparison? p with
          | some shape => rfl
          | none => cases clauses? p <;> rfl

end Map

end Passage

/-! ## Forgetting numbers -/

mutual

/-- The piece without the numbers of keys. -/
def Piece.unnumbered : Piece → Piece
  | .char c => .char c
  | .key _ tier value => .key 0 tier (Passage.unnumbered value)

/-- The passage without the numbers of keys. -/
def Passage.unnumbered : List Piece → Passage
  | [] => []
  | piece :: p => piece.unnumbered :: Passage.unnumbered p

end

theorem Piece.view_unnumbered (a : Piece) : a.unnumbered.view = a.view := by
  cases a with
  | char c => rw [unnumbered]
  | key => rw [unnumbered]; rfl

namespace Passage

theorem unnumbered_eq_map (p : Passage) : unnumbered p = p.map Piece.unnumbered := by
  induction p with
  | nil => rw [unnumbered, List.map_nil]
  | cons a p ih => rw [unnumbered, List.map_cons, ih]

theorem unnumbered_key (number : Nat) (tier : Tier) (value : Passage) :
    (Piece.key number tier value).unnumbered = .key 0 tier (unnumbered value) := by rw [Piece.unnumbered]

theorem unnumbered_append (p q : Passage) : unnumbered (p ++ q) = unnumbered p ++ unnumbered q := by
  simp [unnumbered_eq_map]

theorem unnumbered_dropBlanks (p : Passage) : unnumbered p.dropBlanks = (unnumbered p).dropBlanks := by
  have hblank : (fun a : Piece => ! a.isBlank) ∘ Piece.unnumbered = fun a => ! a.isBlank := by
    funext a
    simp [Piece.isBlank, Piece.view_unnumbered]
  simp only [unnumbered_eq_map, dropBlanks, List.filter_map, hblank]

theorem unnumbered_keep (tier : Tier) (p : Passage) : unnumbered (tier.keep p) = tier.keep (unnumbered p) := by
  cases tier with
  | literal quote => rfl
  | group => exact unnumbered_dropBlanks p
  | comparison symbol => exact unnumbered_dropBlanks p
  | conjunction => exact unnumbered_dropBlanks p

theorem unnumbered_interior (p : Passage) : unnumbered (interior p) = interior (unnumbered p) := by
  simp only [unnumbered_eq_map, interior, ← List.map_tail, ← List.map_dropLast]

theorem unnumbered_replace (cut : Cut Piece) (lifted : Lifted) :
    unnumbered (cut.replace lifted) =
      unnumbered cut.before ++ .key 0 lifted.tier (unnumbered lifted.value) :: unnumbered cut.after := by
  rw [Cut.replace, unnumbered_append, unnumbered, Lifted.piece, unnumbered_key]

/-! ## Rewriting -/

/-- A tier cuts passages that are alike but for numbers in the same places. -/
theorem exists_search?_of_unnumbered {tier : Tier} {p q : Passage} {cut : Cut Piece} (h : unnumbered p = unnumbered q)
    (hs : tier.search? Piece.view p = some cut) :
    ∃ other, tier.search? Piece.view q = some other ∧ unnumbered cut.before = unnumbered other.before ∧
      unnumbered cut.part = unnumbered other.part ∧ unnumbered cut.after = unnumbered other.after := by
  have hp := Tier.search?_map Piece.view_unnumbered tier p
  have hq := Tier.search?_map Piece.view_unnumbered tier q
  rw [← unnumbered_eq_map] at hp hq
  rw [← h, hp, hs, Option.map_some] at hq
  obtain ⟨other, hother, hcut⟩ := Option.map_eq_some_iff.1 hq.symm
  simp only [Cut.map, Cut.mk.injEq] at hcut
  simp only [unnumbered_eq_map]
  exact ⟨other, hother, hcut.1.symm, hcut.2.1.symm, hcut.2.2.symm⟩

/-- Rewriting leaves the same from any register on, but for the numbers of keys. -/
theorem unnumbered_rewrite (tiers : List Tier) (register other : Register) {p q : Passage}
    (h : unnumbered p = unnumbered q) :
    unnumbered (rewrite tiers register p).1 = unnumbered (rewrite tiers other q).1 := by
  induction tiers, register, p using rewrite_induction generalizing other q with
  | done register p =>
    rw [rewrite_nil, rewrite_nil]
    exact h
  | pass tier tiers register p hs ih =>
    have hnone : tier.search? Piece.view q = none := by
      cases hq : tier.search? Piece.view q with
      | none => rfl
      | some cut =>
        obtain ⟨_, hp, -⟩ := exists_search?_of_unnumbered h.symm hq
        rw [hs] at hp
        cases hp
    rw [rewrite_pass hs, rewrite_pass hnone]
    exact ih other h
  | lift tier tiers register p cut hs hg ih =>
    obtain ⟨cut', hs', hbefore, hpart, hafter⟩ := exists_search?_of_unnumbered h hs
    rw [rewrite_lift hs hg, rewrite_lift hs' hg]
    apply ih
    simp only [unnumbered_replace, lift, unnumbered_keep, hbefore, hpart, hafter]
  | group tiers register p cut hs ihc ih =>
    obtain ⟨cut', hs', hbefore, hpart, hafter⟩ := exists_search?_of_unnumbered h hs
    have hinterior : unnumbered (interior cut.part) = unnumbered (interior cut'.part) := by
      rw [unnumbered_interior, unnumbered_interior, hpart]
    have hcontent : unnumbered (content register cut.part).1 = unnumbered (content other cut'.part).1 :=
      ihc other.mint hinterior
    rw [rewrite_group hs, rewrite_group hs']
    apply ih
    simp only [unnumbered_replace, liftGroup, unnumbered_dropBlanks, hbefore, hcontent, hafter]

/-! ## Compiling -/

theorem unwrap_unnumbered (p : Passage) : unwrap (unnumbered p) = unnumbered (unwrap p) := by
  induction p using unwrap.induct with
  | case1 number tier value ih =>
    rw [unwrap_key, ← ih, unnumbered, unnumbered, unnumbered_key, unwrap_key]
  | case2 p hp =>
    rw [unwrap_of_ne hp, unwrap_of_ne]
    rintro number tier value h
    rw [unnumbered_eq_map, List.map_eq_singleton_iff] at h
    obtain ⟨a, rfl, ha⟩ := h
    cases a with
    | char c =>
      rw [Piece.unnumbered] at ha
      cases ha
    | key number tier value => exact hp number tier value rfl

theorem shape_unwrap_unnumbered (clock : Instant) (p : Passage) :
    shape clock (unwrap (unnumbered p)) = (shape clock (unwrap p)).map unnumbered := by
  have hmap : unnumbered = List.map Piece.unnumbered := funext unnumbered_eq_map
  rw [unwrap_unnumbered, unnumbered_eq_map, shape_map Piece.view_unnumbered, hmap]

theorem text?_unnumbered (p : Passage) : text? (unnumbered p) = text? p := by
  rw [unnumbered_eq_map, text?_map Piece.view_unnumbered]

section Compile
variable {clock : Instant} {levels : Nat} {p q : Passage}

theorem isCompound_unnumbered (clock : Instant) (p : Passage) :
    (shape clock (unwrap (unnumbered p))).isCompound = (shape clock (unwrap p)).isCompound := by
  rw [shape_unwrap_unnumbered]
  cases shape clock (unwrap p) <;> rfl

theorem leaks_unnumbered (clock : Instant) (levels : Nat) (p : Passage) :
    leaks clock levels (unnumbered p) = leaks clock levels p := by
  induction levels generalizing p with
  | zero => rfl
  | succ levels ih =>
    unfold leaks
    rw [shape_unwrap_unnumbered]
    cases shape clock (unwrap p) with
    | null => rfl
    | date instant => rfl
    | quoted content => simp only [Shape.map, text?_unnumbered]
    | list items => simp only [Shape.map, List.any_map, Function.comp_def, ih]
    | comparison symbol left right => simp only [Shape.map, ih]
    | clauses connective parts =>
      simp only [Shape.map, List.any_map, Function.comp_def, ih, isCompound_unnumbered]
    | scalar text => simp only [Shape.map, text?_unnumbered]

/-- Without a leak the numbers have no influence. -/
theorem compileWithin_unnumbered (h : leaks clock levels p = false) (suffix : Text) :
    compileWithin suffix clock levels (unnumbered p) = compileWithin suffix clock levels p := by
  induction levels generalizing p with
  | zero => rfl
  | succ levels ih =>
    rw [compileWithin, compileWithin, shape_unwrap_unnumbered, Shape.node_map]
    apply node_eq_of_not_leaks h
    · intro text word ht
      exact ⟨spell_of_text? ((text?_unnumbered text).trans ht) suffix, spell_of_text? ht suffix⟩
    · exact fun part hpart => ih hpart
    · intro part hleak hpart
      refine ⟨isClause_eq_false_of_leaks ((leaks_unnumbered ..).trans hleak) ?_ suffix,
        isClause_eq_false_of_leaks hleak hpart suffix⟩
      rw [leaks_unnumbered, isCompound_unnumbered]
      exact hpart

/-- Passages that are alike but for numbers compile to the same tree, if they do not
leak. -/
theorem compileWithin_congr (halike : unnumbered p = unnumbered q) (h : leaks clock levels p = false) (suffix : Text) :
    compileWithin suffix clock levels p = compileWithin suffix clock levels q := by
  have hq : leaks clock levels q = false := by rw [← leaks_unnumbered, ← halike, leaks_unnumbered, h]
  rw [← compileWithin_unnumbered h, halike, compileWithin_unnumbered hq]

end Compile

end Passage

end FilterQuery
