import Mathlib.Data.List.Forall2
import Mathlib.Data.List.Infix
import Mathlib.Tactic.Common

/-!
# Greedy patterns

Regular expressions that are a sequence of pieces, each an element of a class or
as many elements of a class as there can be. They are matched as a backtracking
matcher does: a repetition first takes all it can, and gives back an element at
a time when the rest does not match. What is found is the greediest way to
match at the leftmost place where there is one.
-/

namespace Sys16.GreedyPatterns

variable {α : Type*}

/-- A piece of a pattern. -/
inductive Piece (α : Type*) where
  /-- An element of a class. -/
  | one (p : α → Bool)
  /-- Elements of a class, at least so many. -/
  | many (least : ℕ) (p : α → Bool)

/-- The pattern of a text. -/
def literal [DecidableEq α] (w : List α) : List (Piece α) := w.map fun a => .one fun b => b = a

/-- What a piece can stand for. -/
def Piece.Takes : Piece α → List α → Prop
  | one p, w => ∃ a, w = [a] ∧ p a = true
  | many least p, w => least ≤ w.length ∧ ∀ a ∈ w, p a = true

/-- The lengths that a repetition tries, the longest first. -/
def lengths (least most : ℕ) : List ℕ := (List.range' least (most + 1 - least)).reverse

/-- The match of a pattern at the start of a list, by what each piece takes. -/
def matchAt : List (Piece α) → List α → Option (List (List α))
  | [], _ => some []
  | .one _ :: _, [] => none
  | .one p :: pieces, a :: s => if p a then (matchAt pieces s).map ([a] :: ·) else none
  | .many least p :: pieces, s =>
    (lengths least (s.takeWhile p).length).findSome? fun k =>
      (matchAt pieces (s.drop k)).map (s.take k :: ·)

/-- The match at the leftmost place. -/
def search (pieces : List (Piece α)) : List α → Option (List (List α))
  | [] => matchAt pieces []
  | a :: s => (matchAt pieces (a :: s)).or (search pieces s)

variable {pieces : List (Piece α)} {piece : Piece α} {s w rest before : List α}
  {ws ws' : List (List α)} {p : α → Bool} {least most k : ℕ}

/-! ## Ways to match -/

/-- A way to match a pattern at the start of a list. -/
structure Way (pieces : List (Piece α)) (s : List α) (ws : List (List α)) : Prop where
  takes : List.Forall₂ Piece.Takes pieces ws
  front : ws.flatten <+: s

theorem way_nil (s : List α) : Way [] s [] := ⟨List.Forall₂.nil, List.nil_prefix⟩

theorem Way.cons (hw : piece.Takes w) (h : Way pieces rest ws) :
    Way (piece :: pieces) (w ++ rest) (w :: ws) :=
  ⟨List.Forall₂.cons hw h.takes, List.prefix_append_right_inj w |>.mpr h.front⟩

theorem Way.uncons (h : Way (piece :: pieces) s ws) : ∃ w ws' rest,
    ws = w :: ws' ∧ s = w ++ rest ∧ piece.Takes w ∧ Way pieces rest ws' := by
  obtain ⟨htakes, t, ht⟩ := h
  obtain ⟨w, ws', hw, hrest, rfl⟩ := List.forall₂_cons_left_iff.mp htakes
  rw [List.flatten_cons, List.append_assoc] at ht
  exact ⟨w, ws', ws'.flatten ++ t, rfl, ht.symm, hw, hrest, List.prefix_append _ _⟩

theorem mem_lengths : k ∈ lengths least most ↔ least ≤ k ∧ k ≤ most := by
  unfold lengths
  rw [List.mem_reverse, List.mem_range'_1]
  omega

theorem lengths_descending (least most : ℕ) : (lengths least most).Pairwise (· > ·) := by
  unfold lengths
  exact List.pairwise_reverse.mpr List.pairwise_lt_range'

/-- What a repetition can take is a length that it tries. -/
theorem takes_length (rest : List α) (hw : (Piece.many least p).Takes w) :
    w.length ∈ lengths least ((w ++ rest).takeWhile p).length := by
  refine mem_lengths.mpr ⟨hw.1, ?_⟩
  rw [List.takeWhile_append_of_pos fun a ha => hw.2 a ha, List.length_append]
  exact Nat.le_add_right _ _

/-- A length that is tried can be taken. -/
theorem takes_take (hk : k ∈ lengths least (s.takeWhile p).length) :
    (Piece.many least p).Takes (s.take k) ∧ (s.take k).length = k := by
  obtain ⟨hleast, hmost⟩ := mem_lengths.mp hk
  have hpre := List.takeWhile_prefix p (l := s)
  have hlen : (s.take k).length = k := by
    rw [List.length_take, Nat.min_eq_left (hmost.trans hpre.length_le)]
  refine ⟨⟨by rw [hlen]; exact hleast, fun a ha => ?_⟩, hlen⟩
  have htake : s.take k = (s.takeWhile p).take k := by
    obtain ⟨t, ht⟩ := hpre
    conv_lhs => rw [← ht]
    exact List.take_append_of_le_length hmost
  rw [htake] at ha
  exact List.all_eq_true.mp List.all_takeWhile a (List.mem_of_mem_take ha)

/-! ## The match at one place -/

/-- One way takes more than another in the first piece that they differ in, or
they are the same. -/
inductive Greedier : List (List α) → List (List α) → Prop
  | nil : Greedier [] []
  | longer {w w' : List α} {ws ws' : List (List α)} (h : w'.length < w.length) :
      Greedier (w :: ws) (w' :: ws')
  | same (w : List α) {ws ws' : List (List α)} (h : Greedier ws ws') :
      Greedier (w :: ws) (w :: ws')

/-- No other way is as greedy. -/
theorem Greedier.antisymm (h : Greedier ws ws') (h' : Greedier ws' ws) : ws = ws' := by
  induction h with
  | nil => rfl
  | longer hlt =>
    cases h' with
    | longer hgt => omega
    | same => exact absurd hlt (Nat.lt_irrefl _)
  | same w _ ih =>
    cases h' with
    | longer hgt => exact absurd hgt (Nat.lt_irrefl _)
    | same _ h' => rw [ih h']

/-- Where there is a way to match, one is found. -/
theorem matchAt_some (h : Way pieces s ws) : ∃ found, matchAt pieces s = some found := by
  induction pieces generalizing s ws with
  | nil => exact ⟨[], by rw [matchAt]⟩
  | cons piece pieces ih =>
    obtain ⟨w, ws', rest, rfl, rfl, hw, hrest⟩ := h.uncons
    obtain ⟨found, hfound⟩ := ih hrest
    cases piece with
    | one p =>
      obtain ⟨a, rfl, ha⟩ := hw
      refine ⟨[a] :: found, ?_⟩
      rw [List.singleton_append, matchAt, if_pos ha, hfound]
      rfl
    | many least p =>
      rw [matchAt]
      refine Option.isSome_iff_exists.mp (List.findSome?_isSome_iff.mpr
        ⟨w.length, takes_length rest hw, ?_⟩)
      rw [List.drop_left, hfound]
      rfl

/-- What is found at a place is the greediest way to match there. -/
theorem matchAt_greediest (h : matchAt pieces s = some ws) :
    Way pieces s ws ∧ ∀ other, Way pieces s other → Greedier ws other := by
  induction pieces generalizing s ws with
  | nil =>
    rw [matchAt] at h
    obtain rfl := Option.some.inj h
    refine ⟨way_nil s, fun other ho => ?_⟩
    rw [List.forall₂_nil_left_iff.mp ho.takes]
    exact .nil
  | cons piece pieces ih =>
    cases piece with
    | one p =>
      cases s with
      | nil => cases h
      | cons a s =>
        rw [matchAt] at h
        split_ifs at h with ha
        obtain ⟨ws', hws, rfl⟩ := Option.map_eq_some_iff.mp h
        obtain ⟨hway, hbest⟩ := ih hws
        refine ⟨hway.cons (show (Piece.one p).Takes [a] from ⟨a, rfl, ha⟩), fun other ho => ?_⟩
        obtain ⟨w, ws'', rest, rfl, hs, ⟨b, rfl, _⟩, hrest⟩ := ho.uncons
        obtain ⟨rfl, rfl⟩ := List.cons.inj hs
        exact .same [a] (hbest _ hrest)
    | many least p =>
      rw [matchAt] at h
      obtain ⟨longer, k, shorter, hsplit, hk, hnone⟩ := List.findSome?_eq_some_iff.mp h
      obtain ⟨ws', hws, rfl⟩ := Option.map_eq_some_iff.mp hk
      obtain ⟨hway, hbest⟩ := ih hws
      have hmem : k ∈ lengths least (s.takeWhile p).length := by rw [hsplit]; simp
      obtain ⟨htakes, hlen⟩ := takes_take hmem
      refine ⟨?_, fun other ho => ?_⟩
      · have hcons := hway.cons htakes
        rwa [List.take_append_drop] at hcons
      · obtain ⟨w, ws'', rest, rfl, rfl, hw, hrest⟩ := ho.uncons
        have hother := takes_length rest hw
        rw [hsplit] at hother
        rcases List.mem_append.mp hother with hlong | hother
        · -- a longer one would have been taken
          have hmiss := hnone _ hlong
          rw [List.drop_left, Option.map_eq_none_iff] at hmiss
          obtain ⟨found, hfound⟩ := matchAt_some hrest
          rw [hmiss] at hfound
          cases hfound
        · rcases List.mem_cons.mp hother with rfl | hshort
          · rw [List.drop_left] at hbest
            rw [List.take_left]
            exact .same w (hbest _ hrest)
          · refine .longer ?_
            rw [hlen]
            have hsorted := lengths_descending least ((w ++ rest).takeWhile p).length
            rw [hsplit] at hsorted
            exact (List.pairwise_cons.mp (List.pairwise_append.mp hsorted).2.1).1 _ hshort

/-! ## The leftmost match -/

/-- The greediest way to match a pattern at the leftmost place of a list where
there is one, which is behind `before`. -/
structure Leftmost (pieces : List (Piece α)) (s before : List α) (ws : List (List α)) : Prop where
  split : ∃ rest, s = before ++ rest ∧ Way pieces rest ws ∧
    ∀ other, Way pieces rest other → Greedier ws other
  first : ∀ sooner rest other, s = sooner ++ rest → Way pieces rest other →
    before.length ≤ sooner.length

/-- A pattern matches somewhere in a list. -/
def Occurs (pieces : List (Piece α)) (s : List α) : Prop := ∃ rest ws, rest <:+ s ∧ Way pieces rest ws

/-- The search finds the leftmost match. -/
theorem search_leftmost (h : search pieces s = some ws) : ∃ before, Leftmost pieces s before ws := by
  induction s with
  | nil =>
    obtain ⟨hway, hbest⟩ := matchAt_greediest h
    exact ⟨[], ⟨[], rfl, hway, hbest⟩, fun _ _ _ _ _ => Nat.zero_le _⟩
  | cons a s ih =>
    rw [search] at h
    cases hat : matchAt pieces (a :: s) with
    | some found =>
      rw [hat] at h
      obtain rfl := Option.some.inj h
      obtain ⟨hway, hbest⟩ := matchAt_greediest hat
      exact ⟨[], ⟨a :: s, rfl, hway, hbest⟩, fun _ _ _ _ _ => Nat.zero_le _⟩
    | none =>
      rw [hat] at h
      obtain ⟨before, ⟨rest, hs, hway, hbest⟩, hfirst⟩ := ih h
      refine ⟨a :: before, ⟨rest, by rw [hs]; rfl, hway, hbest⟩, fun sooner rest' other hs' ho => ?_⟩
      cases sooner with
      | nil =>
        obtain rfl : rest' = a :: s := hs'.symm
        obtain ⟨found, hfound⟩ := matchAt_some ho
        rw [hat] at hfound
        cases hfound
      | cons b sooner =>
        exact Nat.succ_le_succ (hfirst sooner rest' other (List.cons.inj hs').2 ho)

/-- The search finds something wherever there is a way to match. -/
theorem search_isSome : (search pieces s).isSome = true ↔ Occurs pieces s := by
  constructor
  · intro h
    obtain ⟨ws, hws⟩ := Option.isSome_iff_exists.mp h
    obtain ⟨before, ⟨rest, hs, hway, _⟩, _⟩ := search_leftmost hws
    exact ⟨rest, ws, hs ▸ List.suffix_append _ _, hway⟩
  · rintro ⟨rest, ws, ⟨before, rfl⟩, hway⟩
    obtain ⟨found, hfound⟩ := matchAt_some hway
    induction before with
    | nil =>
      cases rest with
      | nil => exact Option.isSome_iff_exists.mpr ⟨found, hfound⟩
      | cons a rest =>
        rw [List.nil_append, search, hfound]
        rfl
    | cons b before ih =>
      rw [List.cons_append, search]
      cases matchAt pieces (b :: (before ++ rest)) with
      | some other => rfl
      | none => exact ih

/-- There is one leftmost match. -/
theorem Leftmost.unique {before' : List α} (h : Leftmost pieces s before ws)
    (h' : Leftmost pieces s before' ws') : before = before' ∧ ws = ws' := by
  obtain ⟨⟨rest, rfl, hway, hbest⟩, hfirst⟩ := h
  obtain ⟨⟨rest', hs', hway', hbest'⟩, hfirst'⟩ := h'
  have hlen : before.length = before'.length :=
    Nat.le_antisymm (hfirst _ _ _ hs' hway') (hfirst' _ _ _ rfl hway)
  obtain ⟨rfl, rfl⟩ := List.append_inj hs' hlen
  exact ⟨rfl, (hbest _ hway').antisymm (hbest' _ hway)⟩

/-- `search` finds the leftmost match and only that. -/
theorem search_eq_some : search pieces s = some ws ↔ ∃ before, Leftmost pieces s before ws := by
  refine ⟨search_leftmost, fun ⟨before, h⟩ => ?_⟩
  obtain ⟨rest, hs, hway, _⟩ := h.split
  obtain ⟨found, hfound⟩ := Option.isSome_iff_exists.mp
    (search_isSome.mpr ⟨rest, ws, hs ▸ List.suffix_append _ _, hway⟩)
  obtain ⟨_, h'⟩ := search_leftmost hfound
  rw [hfound, (h.unique h').2]

end Sys16.GreedyPatterns
