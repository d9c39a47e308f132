import Mathlib.Data.List.DropRight
import Mathlib.Data.List.Infix
import Sys16.PyText

/-!
# Paths in a tree of directories

A path is a string of parts between separators; a place is the list of names
that lead to it from the root. Without symbolic links a path leads to its
place one part after the other. Joining two paths follows the second from
where the first one leads.
-/

namespace Sys16.PosixPath

open PyText

variable {a b path : Str} {here names : List Str}

/-- The part that stays in its directory. -/
def dot : Str := str "."

/-- The part that leads to the parent directory. -/
def dotdot : Str := str ".."

/-- A path from the root. -/
def IsAbsolute (path : Str) : Prop := path.head? = some sep

instance (path : Str) : Decidable (IsAbsolute path) := inferInstanceAs (Decidable (_ = _))

/-- The parts of a path that lead anywhere. -/
def components (path : Str) : List Str := (path.splitOn sep).filter fun p => p ≠ [] ∧ p ≠ dot

/-- One part followed from a place; the parent of the root is the root. -/
def enter (here : List Str) (name : Str) : List Str :=
  if name = dotdot then here.dropLast else here ++ [name]

/-- Parts followed from a place. -/
def follow (here names : List Str) : List Str := names.foldl enter here

/-- The place a path names for a process in a working directory. -/
def resolve (cwd : List Str) (path : Str) : List Str :=
  follow (if IsAbsolute path then [] else cwd) (components path)

/-- `os.path.join` of two paths. -/
def join (a b : Str) : Str :=
  if IsAbsolute b then b
  else if a = [] ∨ a.getLast? = some sep then a ++ b else a ++ sep :: b

@[simp] theorem follow_nil (here : List Str) : follow here [] = here := rfl

/-- Following two lists of names, one after the other. -/
theorem follow_append (here names names' : List Str) :
    follow here (names ++ names') = follow (follow here names) names' := List.foldl_append

/-- Names that are none of the special parts lead downwards. -/
theorem follow_names (h : ∀ n ∈ names, n ≠ dotdot) : follow here names = here ++ names := by
  induction names generalizing here with
  | nil => simp
  | cons n names ih =>
    have hn : enter here n = here ++ [n] := if_neg (h n List.mem_cons_self)
    have hi : follow (enter here n) names = enter here n ++ names :=
      ih fun m hm => h m (List.mem_cons_of_mem n hm)
    unfold follow at hi ⊢
    rw [List.foldl_cons, hi, hn, List.append_assoc, List.singleton_append]

@[simp] theorem components_nil : components [] = [] := by
  simp [components]

/-- The parts on either side of a separator. -/
theorem components_append_sep (a b : Str) :
    components (a ++ sep :: b) = components a ++ components b := by
  unfold components
  rw [List.splitOn_append_cons_self, List.filter_append]

/-- A string without separators is one part. -/
theorem components_of_name (h : sep ∉ a) (hne : a ≠ []) (hdot : a ≠ dot) : components a = [a] := by
  unfold components
  rw [List.splitOn_eq_singleton h]
  simp [hne, hdot]

/-- A name that a part of a path can be, and that leads downwards. -/
structure IsName (name : Str) : Prop where
  ne_nil : name ≠ []
  sep_notMem : sep ∉ name
  ne_dot : name ≠ dot
  ne_dotdot : name ≠ dotdot

/-- A string without separators is at most one part. -/
theorem length_components_name (h : sep ∉ a) : (components a).length ≤ 1 := by
  unfold components
  rw [List.splitOn_eq_singleton h]
  exact List.length_filter_le _ _

/-- A prefix of two lists put together ends in one of them. -/
theorem prefix_append_cases {α : Type*} {q l l' : List α} (h : q <+: l ++ l') :
    q <+: l ∨ ∃ r, r <+: l' ∧ q = l ++ r := by
  rcases List.prefix_or_prefix_of_prefix h (List.prefix_append l l') with hq | ⟨r, rfl⟩
  · exact Or.inl hq
  · exact Or.inr ⟨r, (List.prefix_append_right_inj l).mp h, rfl⟩

/-- The parts of a joined path. -/
theorem components_join (h : ¬IsAbsolute b) :
    components (join a b) = components a ++ components b := by
  unfold join
  rw [if_neg h]
  by_cases ha : a = [] ∨ a.getLast? = some sep
  · rw [if_pos ha]
    rcases ha with rfl | ha
    · simp
    · obtain ⟨front, rfl⟩ := List.getLast?_eq_some_iff.mp ha
      have hfront := components_append_sep front []
      rw [List.append_assoc, List.singleton_append, components_append_sep, hfront]
      simp
  · rw [if_neg ha]
    exact components_append_sep a b

/-- A joined path starts where its first part does. -/
theorem absolute_join (h : ¬IsAbsolute b) : IsAbsolute (join a b) ↔ IsAbsolute a := by
  unfold join
  rw [if_neg h]
  cases a with
  | nil => simpa [IsAbsolute] using h
  | cons c a =>
    unfold IsAbsolute
    split <;> simp

/-- A joined path leads where its second part leads from the first. -/
theorem resolve_join (cwd : List Str) (h : ¬IsAbsolute b) :
    resolve cwd (join a b) = follow (resolve cwd a) (components b) := by
  have habs := absolute_join (a := a) h
  unfold resolve
  rw [components_join h, follow_append]
  by_cases ha : IsAbsolute a
  · rw [if_pos ha, if_pos (habs.mpr ha)]
  · rw [if_neg ha, if_neg (mt habs.mp ha)]

/-! ## Parts of a path string -/

/-- `path.lstrip('/')`. -/
def lstrip (path : Str) : Str := path.dropWhile (· = sep)

/-- `os.path.dirname`. -/
def dirname (path : Str) : Str :=
  match rsplit path with
  | none => []
  | some (front, _) =>
    if ∀ c ∈ front ++ [sep], c = sep then front ++ [sep]
    else (front ++ [sep]).rdropWhile (· = sep)

/-- A path without its leading slashes is relative. -/
theorem lstrip_not_absolute (path : Str) : ¬IsAbsolute (lstrip path) := by
  unfold IsAbsolute lstrip
  intro h
  have hhead := List.head?_dropWhile_not (· = sep) path
  rw [h] at hhead
  simp at hhead

/-- Separators at the start lead nowhere. -/
theorem components_lstrip (path : Str) : components (lstrip path) = components path := by
  unfold lstrip
  induction path with
  | nil => rfl
  | cons c path ih =>
    by_cases hc : c = sep
    · rw [List.dropWhile_cons_of_pos (by simpa using hc), ih, hc]
      exact (components_append_sep [] path).symm ▸ by rw [components_nil, List.nil_append]
    · rw [List.dropWhile_cons_of_neg (by simpa using hc)]

/-- Separators at the end lead nowhere. -/
theorem components_rstrip (path : Str) :
    components (path.rdropWhile (· = sep)) = components path := by
  induction path using List.reverseRecOn with
  | nil => rfl
  | append_singleton path c ih =>
    by_cases hc : c = sep
    · rw [List.rdropWhile_concat_pos _ _ _ (by simpa using hc), ih, hc, components_append_sep,
        components_nil, List.append_nil]
    · rw [List.rdropWhile_concat_neg _ _ _ (by simpa using hc)]

/-- A path is its directory and one more part. -/
theorem components_dirname {front name : Str} (h : rsplit path = some (front, name)) :
    components path = components (dirname path) ++ components name := by
  have hdir : components (dirname path) = components front := by
    unfold dirname
    rw [h]
    dsimp only
    split
    · rw [components_append_sep, components_nil, List.append_nil]
    · rw [components_rstrip, components_append_sep, components_nil, List.append_nil]
  rw [hdir, (rsplit_eq_some.mp h).1, components_append_sep]

/-- The directory of a path starts where the path does. -/
theorem absolute_dirname {front name : Str} (h : rsplit path = some (front, name)) :
    IsAbsolute (dirname path) ↔ IsAbsolute path := by
  have hpath := (rsplit_eq_some.mp h).1
  have hhead : ∀ c, (front ++ [sep]).head? = some c → path.head? = some c := by
    intro c hc
    rw [hpath, show front ++ sep :: name = front ++ [sep] ++ name by simp, List.head?_append, hc]
    rfl
  obtain ⟨c, hc⟩ : ∃ c, (front ++ [sep]).head? = some c := by
    cases front with
    | nil => exact ⟨sep, rfl⟩
    | cons c front => exact ⟨c, rfl⟩
  have hdir : (dirname path).head? = some c := by
    unfold dirname
    rw [h]
    dsimp only
    split
    · exact hc
    · next hall =>
      have hne : (front ++ [sep]).rdropWhile (· = sep) ≠ [] := by
        rw [ne_eq, List.rdropWhile_eq_nil_iff]
        simpa using hall
      obtain ⟨rest, hrest⟩ := List.rdropWhile_prefix (· = sep) (l := front ++ [sep])
      rw [← hrest, List.head?_append_of_ne_nil _ hne] at hc
      exact hc
  unfold IsAbsolute
  rw [hdir, hhead c hc]

/-- A path that goes on from another is not empty. -/
theorem join_ne_nil (h : ¬IsAbsolute b) (ha : a ≠ []) : join a b ≠ [] := by
  unfold join
  rw [if_neg h]
  split <;> simp [ha]

/-- The directory of a path with a separator is not empty. -/
theorem dirname_ne_nil (h : sep ∈ path) : dirname path ≠ [] := by
  unfold dirname
  cases hsplit : rsplit path with
  | none => exact absurd h (rsplit_eq_none.mp hsplit)
  | some r =>
    dsimp only
    split
    · simp
    · next hall =>
      rw [ne_eq, List.rdropWhile_eq_nil_iff]
      simpa using hall

/-- The directory of a path that goes on from another has the parts of that
path, and those of the directory of the rest. -/
theorem components_dirname_append (front rest : Str) :
    components (dirname (front ++ sep :: rest)) = components front ++ components (dirname rest) := by
  have hparts := components_append_sep front rest
  cases hsplit : rsplit rest with
  | none =>
    have hwhole : rsplit (front ++ sep :: rest) = some (front, rest) :=
      rsplit_eq_some.mpr ⟨rfl, rsplit_eq_none.mp hsplit⟩
    have hdir : dirname rest = [] := by
      unfold dirname
      rw [hsplit]
    rw [hdir, components_nil, List.append_nil]
    rw [components_dirname hwhole] at hparts
    exact List.append_cancel_right hparts
  | some r =>
    obtain ⟨hrest, hname⟩ := rsplit_eq_some.mp hsplit
    have hwhole : rsplit (front ++ sep :: rest) = some (front ++ sep :: r.1, r.2) :=
      rsplit_eq_some.mpr ⟨by rw [hrest]; simp, hname⟩
    rw [components_dirname hwhole, components_dirname hsplit, ← List.append_assoc] at hparts
    exact List.append_cancel_right hparts

/-- The directory of a path has all its parts, or all but the last. -/
theorem dirname_parts (path : Str) : ∃ last, last.length ≤ 1 ∧
    components path = components (dirname path) ++ last := by
  cases hsplit : rsplit path with
  | some r =>
    exact ⟨components r.2, length_components_name (rsplit_eq_some.mp hsplit).2,
      components_dirname hsplit⟩
  | none =>
    have hdir : dirname path = [] := by
      unfold dirname
      rw [hsplit]
    exact ⟨components path, length_components_name (rsplit_eq_none.mp hsplit), by simp [hdir]⟩

/-- The directory of any path starts where the path does. -/
theorem absolute_dirname_iff (path : Str) : IsAbsolute (dirname path) ↔ IsAbsolute path := by
  cases hsplit : rsplit path with
  | some r => exact absolute_dirname hsplit
  | none =>
    have hdir : dirname path = [] := by
      unfold dirname
      rw [hsplit]
    rw [hdir]
    refine iff_of_false nofun fun hhead => ?_
    exact rsplit_eq_none.mp hsplit (List.mem_of_head? hhead)

/-! ## Everything on the way -/

/-- The places on the way to the one a path names, which `os.makedirs` makes
when they are missing. -/
def trail (cwd : List Str) (path : Str) : List (List Str) :=
  (components path).inits.map (follow (if IsAbsolute path then [] else cwd))

/-- The trail of a path are the places its beginnings lead to. -/
theorem mem_trail {cwd place : List Str} : place ∈ trail cwd path ↔
    ∃ q, q <+: components path ∧ follow (if IsAbsolute path then [] else cwd) q = place := by
  unfold trail
  rw [List.mem_map]
  simp only [List.mem_inits]

/-- The trail of a path that goes on from another is the trail of that one and
what the further parts lead to. -/
theorem mem_trail_append {cwd place parts : List Str} {further : Str}
    (hparts : components further = components path ++ parts)
    (habs : IsAbsolute further ↔ IsAbsolute path) : place ∈ trail cwd further ↔
      place ∈ trail cwd path ∨ ∃ q, q <+: parts ∧ place = follow (resolve cwd path) q := by
  rw [mem_trail, mem_trail, hparts, if_congr habs rfl rfl]
  constructor
  · rintro ⟨q, hq, rfl⟩
    rcases prefix_append_cases hq with hq | ⟨r, hr, rfl⟩
    · exact Or.inl ⟨q, hq, rfl⟩
    · exact Or.inr ⟨r, hr, follow_append _ _ _⟩
  · rintro (⟨q, hq, rfl⟩ | ⟨q, hq, rfl⟩)
    · exact ⟨q, hq.trans (List.prefix_append _ _), rfl⟩
    · exact ⟨components path ++ q, (List.prefix_append_right_inj _).mpr hq, follow_append _ _ _⟩

/-- The directory of a path and the place it names are all of its trail. -/
theorem mem_trail_dirname {cwd place : List Str} : place ∈ trail cwd path ↔
    place ∈ trail cwd (dirname path) ∨ place = resolve cwd path := by
  obtain ⟨last, hlast, hparts⟩ := dirname_parts path
  have habs := absolute_dirname_iff path
  have hplace : follow (resolve cwd (dirname path)) last = resolve cwd path := by
    unfold resolve
    rw [hparts, follow_append, if_congr habs rfl rfl]
  rw [mem_trail_append hparts habs.symm]
  constructor
  · rintro (hplace' | ⟨q, hq, rfl⟩)
    · exact Or.inl hplace'
    · by_cases hnil : q = []
      · rw [hnil]
        exact Or.inl (mem_trail.mpr ⟨_, List.prefix_rfl, rfl⟩)
      · have hpos := List.length_pos_iff.mpr hnil
        have hq' : q = last := hq.eq_of_length (by have := hq.length_le; omega)
        rw [hq', hplace]
        exact Or.inr rfl
  · rintro (hplace' | rfl)
    · exact Or.inl hplace'
    · exact Or.inr ⟨last, List.prefix_rfl, hplace.symm⟩

/-- One more part of a path that has left a place: how far it is above the
place, and the names that lead down from there. -/
def wanderStep (s : ℕ × List Str) (name : Str) : ℕ × List Str :=
  if name = dotdot then
    if s.2 = [] then (s.1 + 1, []) else (s.1, s.2.dropLast)
  else (s.1, s.2 ++ [name])

/-- Where parts lead from any place: up first, and then down. -/
def wander (parts : List Str) : ℕ × List Str := parts.foldl wanderStep (0, [])

theorem wander_concat (parts : List Str) (name : Str) :
    wander (parts ++ [name]) = wanderStep (wander parts) name := by
  unfold wander
  rw [List.foldl_append]
  rfl

/-- Where parts lead: so many levels up, then down some names. -/
theorem follow_wander (here parts : List Str) :
    follow here parts = here.take (here.length - (wander parts).1) ++ (wander parts).2 := by
  induction parts using List.reverseRecOn with
  | nil => simp [wander]
  | append_singleton parts name ih =>
    rw [follow_append, ih, wander_concat]
    show enter _ name = _
    unfold enter wanderStep
    by_cases hname : name = dotdot
    · rw [if_pos hname, if_pos hname]
      by_cases hnil : (wander parts).2 = []
      · rw [if_pos hnil, hnil, List.append_nil, List.append_nil, List.dropLast_eq_take,
          List.take_take, List.length_take]
        congr 1
        omega
      · rw [if_neg hnil, List.dropLast_append_of_ne_nil hnil]
    · rw [if_neg hname, if_neg hname, List.append_assoc]

/-- Parts that do name something while they are above a place just below the
root lead to where those names lead from the root. -/
theorem follow_above {parts : List Str} (h : (wander parts).1 ≠ 0) (top : Str) :
    follow [top] parts = (wander parts).2 := by
  have hlen : [top].length - (wander parts).1 = 0 := by
    rw [List.length_singleton]
    omega
  rw [follow_wander, hlen, List.take_zero, List.nil_append]

end Sys16.PosixPath
