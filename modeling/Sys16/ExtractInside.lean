import Sys16.HostFiles
import Sys16.StoreHistory

/-!
# Where an extraction goes on the host

A name on an image may hold separators and parent steps, so a path may name
something above the output directory. Whether the extraction gets there is
decided by the host as well: the run ends at the first call that fails, and
some calls fail on every host, because an earlier object of the same image is
a file where a directory is needed, or a directory where a file is.
-/

namespace Sys16.ExtractInside

open Function ByteStore LittleEndian PyText PyStruct PosixPath StoreHistory S5Reader S5Walk
open S5Extract HostFiles

/-! ## What calls touch -/

/-- The places that `os.makedirs` makes, up to one where it fails. -/
def made (h : Host) : List (List Str) → List (List Str)
  | [] => []
  | p :: ps =>
    match mkdir h p with
    | none => []
    | some h' => (if h p = none then [p] else []) ++ made h' ps

/-- The places that a call makes, writes to or changes the mode of. -/
def touched (cwd : List Str) (h : Host) (a : Action) : List (List Str) :=
  match a with
  | .makedirs path => if path = [] then [] else made h (trail cwd path)
  | .create path | .write path _ | .chmod path =>
    if (perform cwd h a).isSome then [resolve cwd path] else []

/-- The places that calls touch, up to the first that fails. -/
def touchedAll (cwd : List Str) (h : Host) : List Action → List (List Str)
  | [] => []
  | a :: actions =>
    touched cwd h a ++
      match perform cwd h a with
      | none => []
      | some h' => touchedAll cwd h' actions

variable {h h' : Host} {cwd place base p : List Str} {out t : Str} {d : Bytes}
  {l q r parts : List Str} {f : List Str → List Str} {a : Action} {actions : List Action}
  {x y : Found} {done front found : List Found}

/-- What a run over two pieces touches is what the first touches, followed by what the
second touches where the first got through. -/
theorem touchedAll_append (cwd : List Str) (h : Host) (xs ys : List Action) :
    touchedAll cwd h (xs ++ ys) = touchedAll cwd h xs ++
      match performAll cwd h xs with
      | none => []
      | some h' => touchedAll cwd h' ys := by
  induction xs generalizing h with
  | nil => rfl
  | cons a xs ih =>
    show touched cwd h a ++ _ = (touched cwd h a ++ _) ++ _
    rw [performAll_cons, List.append_assoc]
    cases perform cwd h a with
    | none => rfl
    | some h' => exact congrArg (touched cwd h a ++ ·) (ih h')

/-! ## Places on the way -/

/-- A place that `os.makedirs` makes on its way was free, and it came there
past no file. -/
theorem of_mem_made (hp : p ∈ made h (l.inits.map f)) :
    h p = none ∧ ∃ q, q <+: l ∧ f q = p ∧ ∀ r, r <+: q → r ≠ q → ¬IsFile h (f r) := by
  induction l generalizing h f with
  | nil =>
    change p ∈ made h [f []] at hp
    unfold made at hp
    cases hm : mkdir h (f []) with
    | none =>
      rw [hm] at hp
      cases hp
    | some h₁ =>
      rw [hm] at hp
      dsimp only [made] at hp
      rw [List.append_nil] at hp
      split at hp
      · next hnone =>
        rw [List.mem_singleton.mp hp]
        exact ⟨hnone, [], List.prefix_rfl, rfl, fun r hr hne =>
          absurd (List.prefix_nil.mp hr) hne⟩
      · cases hp
  | cons c l ih =>
    rw [List.inits_cons, List.map_cons, List.map_map] at hp
    unfold made at hp
    cases hm : mkdir h (f []) with
    | none =>
      rw [hm] at hp
      cases hp
    | some h₁ =>
      obtain ⟨hfree, rfl⟩ := mkdir_some hm
      rw [hm] at hp
      rcases List.mem_append.mp hp with hp | hp
      · split at hp
        · next hnone =>
          rw [List.mem_singleton.mp hp]
          exact ⟨hnone, [], List.nil_prefix, rfl, fun r hr hne =>
            absurd (List.prefix_nil.mp hr) hne⟩
        · cases hp
      · obtain ⟨hnone, q, hq, hfq, hway⟩ := ih hp
        have hne : p ≠ f [] := by
          rintro rfl
          rw [update_self] at hnone
          cases hnone
        rw [update_of_ne hne] at hnone
        refine ⟨hnone, c :: q, List.cons_prefix_cons.mpr ⟨rfl, hq⟩, hfq, fun r hr hrq => ?_⟩
        cases r with
        | nil => exact hfree
        | cons c' r =>
          obtain ⟨rfl, htail⟩ := List.cons_prefix_cons.mp hr
          exact mt (isFile_update_dir hfree).mpr (hway r htail fun he => hrq (by rw [he]))

/-- A free place that `os.makedirs` comes to past no file is made. -/
theorem mem_made (hq : q <+: l) (hnone : h (f q) = none)
    (hway : ∀ r, r <+: q → r ≠ q → ¬IsFile h (f r)) : f q ∈ made h (l.inits.map f) := by
  induction l generalizing h f q with
  | nil =>
    obtain rfl := List.prefix_nil.mp hq
    change f [] ∈ made h [f []]
    unfold made
    rw [mkdir_of_free (not_isFile_iff.mpr (Or.inl hnone))]
    dsimp only
    rw [if_pos hnone]
    exact List.mem_append_left _ (List.mem_singleton_self _)
  | cons c l ih =>
    rw [List.inits_cons, List.map_cons, List.map_map]
    unfold made
    by_cases hsame : f q = f []
    · rw [hsame] at hnone ⊢
      rw [mkdir_of_free (not_isFile_iff.mpr (Or.inl hnone))]
      dsimp only
      rw [if_pos hnone]
      exact List.mem_append_left _ (List.mem_singleton_self _)
    · obtain ⟨q, rfl, hql⟩ : ∃ q', q = c :: q' ∧ q' <+: l := by
        rcases List.prefix_cons_iff.mp hq with rfl | ⟨q', rfl, hq'⟩
        · exact absurd rfl hsame
        · exact ⟨q', rfl, hq'⟩
      have hfree : ¬IsFile h (f []) := hway [] List.nil_prefix (List.cons_ne_nil c q).symm
      rw [mkdir_of_free hfree]
      refine List.mem_append_right _ (ih (f := f ∘ (c :: ·)) hql ?_ fun r hr hrq => ?_)
      · exact (update_of_ne hsame _ h).trans hnone
      · refine mt (isFile_update_dir hfree).mp (hway (c :: r) ?_ fun he => hrq ?_)
        · exact List.cons_prefix_cons.mpr ⟨rfl, hr⟩
        · exact (List.cons_inj_right c).mp he

/-! ## What an object needs of the host -/

/-- A regular file of an image. -/
def Regular (x : Found) : Prop := S_ISDIR x.inode.mode = false ∧ S_ISREG x.inode.mode = true

/-- The directory that is made for an object: the object itself, or the
directory of a regular file. -/
def folder (out : Str) (x : Found) : Str :=
  if S_ISDIR x.inode.mode then target out x.path else dirname (target out x.path)

/-- The parts of that directory below the output directory. -/
def way (x : Found) : List Str :=
  if S_ISDIR x.inode.mode then components x.path else components (dirname (lstrip x.path))

/-- Where an object goes. -/
def goal (base : List Str) (x : Found) : List Str := follow base (components x.path)

/-- The path an entry is written to, resolved, is the name of the entry followed from the
output directory. -/
theorem resolve_goal (cwd : List Str) (out : Str) (x : Found) :
    resolve cwd (target out x.path) = goal (resolve cwd out) x := by
  unfold target goal
  rw [resolve_join cwd (lstrip_not_absolute _), components_lstrip]

/-- The directory for an object is the output directory and the way on from there. -/
theorem components_folder (hout : out ≠ []) (x : Found) :
    components (folder out x) = components out ++ way x ∧
      (IsAbsolute (folder out x) ↔ IsAbsolute out) := by
  have habs := absolute_join (a := out) (lstrip_not_absolute x.path)
  unfold folder way
  split
  · refine ⟨?_, habs⟩
    unfold target
    rw [components_join (lstrip_not_absolute _), components_lstrip]
  · refine ⟨?_, (absolute_dirname_iff _).trans habs⟩
    unfold target join
    rw [if_neg (lstrip_not_absolute _)]
    split
    · next hlast =>
      obtain ⟨rest, rfl⟩ := List.getLast?_eq_some_iff.mp (hlast.resolve_left hout)
      have hrest := components_append_sep rest []
      rw [List.append_assoc, List.singleton_append, components_dirname_append, hrest,
        components_nil, List.append_nil]
    · exact components_dirname_append out _

/-- An entry's folder is never the empty path when the output directory is not. -/
theorem folder_ne_nil (hout : out ≠ []) (x : Found) : folder out x ≠ [] := by
  unfold folder
  split
  · exact target_ne_nil hout _
  · exact dirname_target_ne_nil hout _

/-- The way of an object is all its parts, or all but the last. -/
theorem way_parts (x : Found) : way x <+: components x.path ∧
    ∀ q, q <+: components x.path → q ≠ components x.path → q <+: way x := by
  unfold way
  split
  · exact ⟨List.prefix_rfl, fun q hq _ => hq⟩
  · obtain ⟨last, hlast, hparts⟩ := dirname_parts (lstrip x.path)
    rw [components_lstrip] at hparts
    refine ⟨hparts ▸ List.prefix_append _ _, fun q hq hne => ?_⟩
    have hle : q.length < (components x.path).length :=
      lt_of_le_of_ne hq.length_le fun he => hne (hq.eq_of_length he)
    rw [hparts, List.length_append] at hle
    rw [hparts] at hq
    exact List.prefix_of_prefix_length_le hq (List.prefix_append _ _) (by omega)

/-- What leads to a part of an object's path is on its way. -/
theorem way_of_concat {name : Str} (hq : q ++ [name] <+: components x.path) : q <+: way x := by
  refine (way_parts x).2 q ((List.prefix_append q [name]).trans hq) fun he => ?_
  have hle := hq.length_le
  rw [he, List.length_append, List.length_singleton] at hle
  omega

/-- The places that are made for an object. -/
theorem mem_folder_trail (hout : out ≠ []) : p ∈ trail cwd (folder out x) ↔
    p ∈ trail cwd out ∨ ∃ q, q <+: way x ∧ p = follow (resolve cwd out) q :=
  mem_trail_append (components_folder hout x).1 (components_folder hout x).2

/-- The calls that follow once a file is open: they write to it and change its mode. -/
def After (t : Str) (actions : List Action) : Prop :=
  ∀ a ∈ actions, (∃ content, a = .write t content) ∨ a = .chmod t

/-- A directory entry asks for its folder and nothing else. -/
theorem entry_dir (hx : S_ISDIR x.inode.mode = true) :
    (extractEntry d out x).1 = [.makedirs (folder out x)] := by
  unfold extractEntry folder
  dsimp only
  rw [if_pos hx, if_pos hx]

/-- A regular entry asks for its folder and creates the file at its path; what follows
stays with that file. -/
theorem entry_regular (d : Bytes) (out : Str) (hx : Regular x) : ∃ rest,
    (extractEntry d out x).1 =
      .makedirs (folder out x) :: .create (target out x.path) :: rest ∧
    After (target out x.path) rest := by
  have hdir : ¬S_ISDIR x.inode.mode = true := Bool.eq_false_iff.mp hx.1
  unfold extractEntry folder
  dsimp only
  rw [if_neg hdir, if_pos hx.2, if_neg hdir]
  cases data d x.inode with
  | error e => exact ⟨[], rfl, fun a ha => absurd ha List.not_mem_nil⟩
  | ok content =>
    refine ⟨_, rfl, fun a ha => ?_⟩
    rcases List.mem_cons.mp ha with rfl | ha
    · exact Or.inl ⟨content, rfl⟩
    · split at ha
      · exact Or.inr (List.mem_singleton.mp ha)
      · cases ha

/-- An entry of any other kind asks for nothing of the host. -/
theorem entry_other (hx : ¬Extracted x) : (extractEntry d out x).1 = [] := by
  obtain ⟨hdir, hreg⟩ := not_or.mp hx
  unfold extractEntry
  dsimp only
  rw [if_neg hdir, if_neg hreg]

/-- What follows once a file is open cannot fail, and touches the file only. -/
theorem after_runs (hafter : After t actions) (hfile : IsFile h (resolve cwd t)) :
    (∃ h', performAll cwd h actions = some h' ∧ FileAt h h' (resolve cwd t)) ∧
      ∀ p ∈ touchedAll cwd h actions, p = resolve cwd t := by
  induction actions generalizing h with
  | nil => exact ⟨⟨h, rfl, hfile, fun _ _ => rfl⟩, fun p hp => absurd hp List.not_mem_nil⟩
  | cons a actions ih =>
    obtain ⟨ha, hrest⟩ := List.forall_mem_cons.mp hafter
    obtain ⟨c, x, hcx⟩ := hfile
    obtain ⟨c', x', hperform, htouched⟩ : ∃ c' x', perform cwd h a =
        some (update h (resolve cwd t) (some (.file c' x'))) ∧
        touched cwd h a = [resolve cwd t] := by
      rcases ha with ⟨content, rfl⟩ | rfl
      · have hrun : perform cwd h (.write t content) =
            some (update h (resolve cwd t) (some (.file content x))) := by
          unfold perform
          dsimp only
          rw [hcx]
        exact ⟨content, x, hrun, if_pos (Option.isSome_iff_exists.mpr ⟨_, hrun⟩)⟩
      · have hrun : perform cwd h (.chmod t) =
            some (update h (resolve cwd t) (some (.file c true))) := by
          unfold perform
          dsimp only
          rw [hcx]
        exact ⟨c, true, hrun, if_pos (Option.isSome_iff_exists.mpr ⟨_, hrun⟩)⟩
    obtain ⟨⟨h', hrun, hat⟩, htouch⟩ := ih (h := update h (resolve cwd t) (some (.file c' x')))
      hrest ⟨c', x', update_self _ _ _⟩
    refine ⟨⟨h', ?_, hat.file, fun q hq => ?_⟩, fun p hp => ?_⟩
    · rw [performAll_cons, hperform]
      exact hrun
    · rw [hat.others q hq, update_of_ne hq]
    · unfold touchedAll at hp
      rw [hperform, htouched] at hp
      rcases List.mem_append.mp hp with hp | hp
      · exact List.mem_singleton.mp hp
      · exact htouch p hp

/-- The calls for an object that all succeed: the places on its way become
directories, and a regular file is put where no directory stands. -/
theorem entry_runs (hout : out ≠ []) (hx : Extracted x)
    (hrun : performAll cwd h (extractEntry d out x).1 = some h') :
    ∃ h₁, (trail cwd (folder out x)).foldlM mkdir h = some h₁ ∧
      (S_ISDIR x.inode.mode = true → h' = h₁) ∧
      (Regular x → h₁ (goal (resolve cwd out) x) ≠ some .dir ∧
        FileAt h₁ h' (goal (resolve cwd out) x)) := by
  by_cases hdir : S_ISDIR x.inode.mode = true
  · rw [entry_dir hdir, performAll_cons, perform_makedirs cwd h (folder_ne_nil hout x)] at hrun
    obtain ⟨h₁, hmade, hend⟩ := Option.bind_eq_some_iff.mp hrun
    refine ⟨h₁, hmade, fun _ => (Option.some.inj hend).symm, fun hreg => ?_⟩
    rw [hreg.1] at hdir
    cases hdir
  · have hreg : Regular x := ⟨Bool.eq_false_iff.mpr hdir, hx.resolve_left hdir⟩
    obtain ⟨rest, hentry, hafter⟩ := entry_regular d out hreg
    rw [hentry, performAll_cons, perform_makedirs cwd h (folder_ne_nil hout x)] at hrun
    obtain ⟨h₁, hmade, hrun⟩ := Option.bind_eq_some_iff.mp hrun
    rw [performAll_cons] at hrun
    obtain ⟨h₂, hopen, hrun⟩ := Option.bind_eq_some_iff.mp hrun
    have hcreate : create h₁ (resolve cwd (target out x.path)) = some h₂ := hopen
    obtain ⟨hfree, hfile⟩ := create_some hcreate
    obtain ⟨⟨h₃, hrest, hat⟩, _⟩ := after_runs hafter hfile.file
    obtain rfl := Option.some.inj (hrest.symm.trans hrun)
    rw [resolve_goal] at hfree hfile hat
    exact ⟨h₁, hmade, fun h => absurd h hdir, fun _ =>
      ⟨hfree, hat.file, fun q hq => (hat.others q hq).trans (hfile.others q hq)⟩⟩

/-- What the calls for an object touch: places on its way, and for a regular
file where it goes. -/
theorem entry_touched (hout : out ≠ []) (hx : Extracted x)
    (hp : p ∈ touchedAll cwd h (extractEntry d out x).1) :
    p ∈ made h (trail cwd (folder out x)) ∨ Regular x ∧ p = goal (resolve cwd out) x ∧
      ∃ h₁, (trail cwd (folder out x)).foldlM mkdir h = some h₁ ∧ h₁ p ≠ some .dir := by
  have hfirst : touched cwd h (.makedirs (folder out x)) = made h (trail cwd (folder out x)) :=
    if_neg (folder_ne_nil hout x)
  by_cases hdir : S_ISDIR x.inode.mode = true
  · rw [entry_dir hdir] at hp
    unfold touchedAll at hp
    rw [hfirst] at hp
    rcases List.mem_append.mp hp with hp | hp
    · exact Or.inl hp
    · split at hp <;> cases hp
  · have hreg : Regular x := ⟨Bool.eq_false_iff.mpr hdir, hx.resolve_left hdir⟩
    obtain ⟨rest, hentry, hafter⟩ := entry_regular d out hreg
    rw [hentry] at hp
    unfold touchedAll at hp
    rw [hfirst, perform_makedirs cwd h (folder_ne_nil hout x)] at hp
    rcases List.mem_append.mp hp with hp | hp
    · exact Or.inl hp
    · cases hmade : (trail cwd (folder out x)).foldlM mkdir h with
      | none =>
        rw [hmade] at hp
        cases hp
      | some h₁ =>
        rw [hmade] at hp
        dsimp only [touchedAll] at hp
        have hperform : perform cwd h₁ (.create (target out x.path)) =
            create h₁ (resolve cwd (target out x.path)) := rfl
        cases hopen : create h₁ (resolve cwd (target out x.path)) with
        | none =>
          unfold touched at hp
          rw [hperform, hopen] at hp
          exact absurd hp (by simp)
        | some h₂ =>
          obtain ⟨hfree, hfile⟩ := create_some hopen
          have hplace : p = resolve cwd (target out x.path) := by
            unfold touched at hp
            rw [hperform, hopen] at hp
            rcases List.mem_append.mp hp with hp | hp
            · exact List.mem_singleton.mp hp
            · exact (after_runs hafter hfile.file).2 p hp
          rw [← hplace] at hfree
          exact Or.inr ⟨hreg, hplace.trans (resolve_goal cwd out x), h₁, rfl, hfree⟩

/-! ## Objects in each other's way -/

/-- Parts that name something above the place they start from. -/
def Escapes (q : List Str) : Prop := (wander q).1 ≠ 0 ∧ (wander q).2 ≠ []

/-- On the way along some parts there is an earlier regular file. -/
def Blocked (done : List Found) (q : List Str) : Prop :=
  ∃ y ∈ done, Regular y ∧ ∃ r, r <+: q ∧ wander r = wander (components y.path)

/-- Where an object goes there is the output directory or one above it, or a
directory that has been made for it or for an earlier object. -/
def Taken (done : List Found) (x : Found) : Prop :=
  (wander (components x.path)).2 = [] ∨
    ∃ y ∈ done ++ [x], Extracted y ∧ ∃ q, q <+: way y ∧ wander q = wander (components x.path)

/-- An object that no host lets through after some others: a directory it needs
is an earlier file, or it is a file where a directory has been made. -/
def Clash (done : List Found) (x : Found) : Prop :=
  Extracted x ∧ Blocked done (way x) ∨ Regular x ∧ Taken done x

/-- The way of an object names nothing above the output directory, unless an
earlier file comes before that. -/
def Safe (done : List Found) (x : Found) : Prop :=
  ∀ q name, q ++ [name] <+: components x.path → Escapes (q ++ [name]) → Blocked done q

/-- No object clashes with those before it. -/
def Clean (l : List Found) : Prop := ∀ front x back, l = front ++ x :: back → ¬Clash front x

/-- Two walks that wander to the same place lead to the same path. -/
theorem follow_of_wander (base : List Str) (hw : wander q = wander r) :
    follow base q = follow base r := by
  rw [follow_wander, follow_wander, hw]

/-- Where parts lead: into a place, to it or above it, or out of it. -/
theorem follow_cases (base q : List Str) :
    base <+: follow base q ∨ follow base q <+: base ∨ Escapes q := by
  rw [follow_wander]
  by_cases hup : (wander q).1 = 0
  · rw [hup, Nat.sub_zero, List.take_length]
    exact Or.inl (List.prefix_append _ _)
  · by_cases hdown : (wander q).2 = []
    · rw [hdown, List.append_nil]
      exact Or.inr (Or.inl (List.take_prefix _ _))
    · exact Or.inr (Or.inr ⟨hup, hdown⟩)

/-- A path that leaves its base is not empty, so it has a last name. -/
theorem escapes_concat (hq : Escapes q) : ∃ front name, q = front ++ [name] := by
  rcases List.eq_nil_or_concat q with rfl | ⟨front, name, rfl⟩
  · exact absurd rfl hq.1
  · exact ⟨front, name, List.concat_eq_append⟩

/-- An object that clashes with none before it and is safe names nothing above
the output directory at all. -/
theorem not_escapes (hclash : ¬Clash done x) (hsafe : Safe done x) (hx : Extracted x)
    (hq : q <+: components x.path) : ¬Escapes q := by
  intro hesc
  obtain ⟨q₀, name, rfl⟩ := escapes_concat hesc
  obtain ⟨y, hy, hreg, r, hr, hw⟩ := hsafe q₀ name hq hesc
  exact hclash (Or.inl ⟨hx, y, hy, hreg, r, hr.trans (way_of_concat hq), hw⟩)

/-! ## Extraction on any host -/

/-- The objects so far stand, and so does all that is above the output directory. -/
structure Standing (cwd : List Str) (out : Str) (done : List Found) (h : Host) : Prop where
  above : ∀ p, p ∈ trail cwd out ∨ p <+: resolve cwd out → h p = some .dir
  dirs : ∀ y ∈ done, Extracted y → ∀ q, q <+: way y → h (follow (resolve cwd out) q) = some .dir
  files : ∀ y ∈ done, Regular y → IsFile h (goal (resolve cwd out) y)

/-- An entry that runs into one written before meets a name the host now has as a file. -/
theorem Standing.blocked (hs : Standing cwd out done h) (hb : Blocked done q) :
    ∃ r, r <+: q ∧ IsFile h (follow (resolve cwd out) r) := by
  obtain ⟨y, hy, hreg, r, hr, hw⟩ := hb
  exact ⟨r, hr, (follow_of_wander _ hw) ▸ hs.files y hy hreg⟩

/-- A directory is no file. -/
theorem not_isFile_of_dir (hp : h p = some .dir) : ¬IsFile h p := not_isFile_iff.mpr (Or.inr hp)

/-- Whatever the calls for a safe object touch is in the output directory. -/
theorem entry_inside (hout : out ≠ []) (hs : Standing cwd out done h)
    (hsafe : Extracted x → Safe done x) (hp : p ∈ touchedAll cwd h (extractEntry d out x).1) :
    resolve cwd out <+: p := by
  by_cases hx : Extracted x
  · rcases entry_touched hout hx hp with hmade | ⟨hreg, rfl, h₁, hmade, hfree⟩
    · obtain ⟨hparts, habs⟩ := components_folder hout x
      unfold trail at hmade
      rw [hparts, if_congr habs rfl rfl] at hmade
      obtain ⟨hnone, q, hq, rfl, hway⟩ := of_mem_made hmade
      rcases prefix_append_cases hq with hq | ⟨r, hr, rfl⟩
      · rw [hs.above _ (Or.inl (mem_trail.mpr ⟨q, hq, rfl⟩))] at hnone
        cases hnone
      · rw [follow_append] at hnone ⊢
        rcases follow_cases (resolve cwd out) r with hin | habove | hesc
        · exact hin
        · rw [show follow (follow _ (components out)) r = follow (resolve cwd out) r from rfl,
            hs.above _ (Or.inr habove)] at hnone
          cases hnone
        · -- an earlier file would have been in the way
          obtain ⟨q₀, name, rfl⟩ := escapes_concat hesc
          obtain ⟨r, hr', hfile⟩ := hs.blocked (hsafe hx q₀ name (hr.trans (way_parts x).1) hesc)
          have hlen := hr'.length_le
          refine absurd hfile ?_
          have hclear := hway (components out ++ r) ((List.prefix_append_right_inj _).mpr
            (hr'.trans (List.prefix_append _ _))) fun he => by
              rw [List.append_cancel_left he, List.length_append] at hlen
              simp at hlen
          rwa [follow_append] at hclear
    · obtain ⟨hclear, hm⟩ := mkdirs_some hmade
      rcases follow_cases (resolve cwd out) (components x.path) with hin | habove | hesc
      · exact hin
      · exact absurd (hm.dir.mpr (Or.inr (hs.above _ (Or.inr habove)))) hfree
      · obtain ⟨q₀, name, hq⟩ := escapes_concat hesc
        have hprefix : q₀ ++ [name] <+: components x.path := hq ▸ List.prefix_rfl
        obtain ⟨r, hr, hfile⟩ := hs.blocked (hsafe hx q₀ name hprefix (hq ▸ hesc))
        refine absurd hfile (hclear _ ((mem_folder_trail hout).mpr (Or.inr ⟨r, ?_, rfl⟩)))
        exact hr.trans (way_of_concat hprefix)
  · rw [entry_other hx] at hp
    cases hp

/-- The calls for an object leave every directory and every file where it was. -/
theorem entry_keeps (hout : out ≠ [])
    (hrun : performAll cwd h (extractEntry d out x).1 = some h') :
    (∀ p, h p = some .dir → h' p = some .dir) ∧ ∀ p, IsFile h p → IsFile h' p := by
  by_cases hx : Extracted x
  · obtain ⟨h₁, hmade, hdir, hreg⟩ := entry_runs hout hx hrun
    obtain ⟨hclear, hm⟩ := mkdirs_some hmade
    have hdirs : ∀ p, h p = some .dir → h₁ p = some .dir := fun p hp => hm.dir.mpr (Or.inr hp)
    have hfiles : ∀ p, IsFile h p → IsFile h₁ p := fun p hp => (hm.isFile hclear).mpr hp
    by_cases hisdir : S_ISDIR x.inode.mode = true
    · rw [hdir hisdir]
      exact ⟨hdirs, hfiles⟩
    · -- the only new file is where no directory is
      obtain ⟨hfree, hat⟩ := hreg ⟨Bool.eq_false_iff.mpr hisdir, hx.resolve_left hisdir⟩
      refine ⟨fun p hp => ?_, fun p hp => ?_⟩
      · rw [hat.others p fun he => hfree (he ▸ hdirs p hp), hdirs p hp]
      · by_cases hgoal : p = goal (resolve cwd out) x
        · exact hgoal ▸ hat.file
        · obtain ⟨c, e, hc⟩ := hfiles p hp
          exact ⟨c, e, (hat.others p hgoal).trans hc⟩
  · rw [entry_other hx] at hrun
    obtain rfl := Option.some.inj hrun
    exact ⟨fun _ hp => hp, fun _ hp => hp⟩

/-- An object whose calls all succeed stands after them. -/
theorem entry_stands (hout : out ≠ []) (hx : Extracted x)
    (hrun : performAll cwd h (extractEntry d out x).1 = some h') :
    (∀ q, q <+: way x → h' (follow (resolve cwd out) q) = some .dir) ∧
      (Regular x → IsFile h' (goal (resolve cwd out) x)) := by
  obtain ⟨h₁, hmade, hdir, hreg⟩ := entry_runs hout hx hrun
  have hway : ∀ q, q <+: way x → h₁ (follow (resolve cwd out) q) = some .dir := fun q hq =>
    (mkdirs_some hmade).2.made _ ((mem_folder_trail hout).mpr (Or.inr ⟨q, hq, rfl⟩))
  refine ⟨fun q hq => ?_, fun hxr => (hreg hxr).2.file⟩
  by_cases hisdir : S_ISDIR x.inode.mode = true
  · rw [hdir hisdir, hway q hq]
  · obtain ⟨hfree, hat⟩ := hreg ⟨Bool.eq_false_iff.mpr hisdir, hx.resolve_left hisdir⟩
    rw [hat.others _ fun he => hfree (he ▸ hway q hq), hway q hq]

/-- An object whose calls all succeed clashes with none that stands. -/
theorem entry_clear (hout : out ≠ []) (hs : Standing cwd out done h)
    (hrun : performAll cwd h (extractEntry d out x).1 = some h') : ¬Clash done x := by
  rintro (⟨hx, hblocked⟩ | ⟨hxr, htaken⟩)
  · obtain ⟨h₁, hmade, _, _⟩ := entry_runs hout hx hrun
    obtain ⟨r, hr, hfile⟩ := hs.blocked hblocked
    exact (mkdirs_some hmade).1 _ ((mem_folder_trail hout).mpr (Or.inr ⟨r, hr, rfl⟩)) hfile
  · obtain ⟨h₁, hmade, _, hreg⟩ := entry_runs hout (Or.inr hxr.2) hrun
    obtain ⟨_, hm⟩ := mkdirs_some hmade
    refine (hreg hxr).1 ?_
    unfold goal
    rcases htaken with hnil | ⟨y, hy, hyx, q, hq, hw⟩
    · refine hm.dir.mpr (Or.inr (hs.above _ (Or.inr ?_)))
      rw [follow_wander, hnil, List.append_nil]
      exact List.take_prefix _ _
    · rw [← follow_of_wander (resolve cwd out) hw]
      rcases List.mem_append.mp hy with hy | hy
      · exact hm.dir.mpr (Or.inr (hs.dirs y hy hyx q hq))
      · obtain rfl := List.mem_singleton.mp hy
        exact hm.made _ ((mem_folder_trail hout).mpr (Or.inr ⟨q, hq, rfl⟩))

/-- The objects so far still stand after the calls for one more, which stands too
and has clashed with none. -/
theorem standing_step (hout : out ≠ []) (hs : Standing cwd out done h)
    (hrun : performAll cwd h (extractEntry d out x).1 = some h') :
    Standing cwd out (done ++ [x]) h' ∧ ¬Clash done x := by
  obtain ⟨hdirs, hfiles⟩ := entry_keeps hout hrun
  refine ⟨⟨fun p hp => hdirs p (hs.above p hp), fun y hy hyx q hq => ?_, fun y hy hyr => ?_⟩,
    entry_clear hout hs hrun⟩
  · rcases List.mem_append.mp hy with hy | hy
    · exact hdirs _ (hs.dirs y hy hyx q hq)
    · obtain rfl := List.mem_singleton.mp hy
      exact (entry_stands hout hyx hrun).1 q hq
  · rcases List.mem_append.mp hy with hy | hy
    · exact hfiles _ (hs.files y hy hyr)
    · obtain rfl := List.mem_singleton.mp hy
      exact (entry_stands hout (Or.inr hyr.2) hrun).2 hyr

/-- Whatever the output directory and the host, nothing outside that directory
is made, written to or changed in mode once it stands. -/
def StaysInside (d : Bytes) : Prop :=
  ∀ cwd out start h, (∀ p, p <+: cwd → start p = some .dir) →
    performAll cwd start (main d out).1 = some h →
    ∀ p ∈ touchedAll cwd h (main d out).2.1, resolve cwd out <+: p

/-- No object of a list that the loop comes to names something above the output
directory on its way, unless an earlier file comes before that. -/
def NothingAbove (l : List Found) : Prop :=
  ∀ front x back, l = front ++ x :: back → Clean front → Extracted x → Safe front x

/-- An entry without a clash keeps the entries written so far clean. -/
theorem clean_concat (hdone : Clean done) (hx : ¬Clash done x) : Clean (done ++ [x]) := by
  intro front y back hsplit
  rcases concat_split hsplit with ⟨rfl, rfl, _⟩ | ⟨back', _, rfl⟩
  · exact hx
  · exact hdone front y back' rfl

/-- A place above where parts lead is above where they start, or on their way. -/
theorem prefix_follow {here : List Str} (hp : p <+: follow here q) :
    p <+: here ∨ ∃ r, r <+: q ∧ p = follow here r := by
  induction q using List.reverseRecOn with
  | nil => exact Or.inl hp
  | append_singleton q name ih =>
    have hone : follow here (q ++ [name]) = enter (follow here q) name := follow_append _ _ _
    have hup : p <+: follow here q → p <+: here ∨ ∃ r, r <+: q ++ [name] ∧ p = follow here r :=
      fun h => (ih h).imp_right fun ⟨r, hr, he⟩ => ⟨r, hr.trans (List.prefix_append _ _), he⟩
    by_cases hwhole : p = follow here (q ++ [name])
    · exact Or.inr ⟨q ++ [name], List.prefix_rfl, hwhole⟩
    · rw [hone] at hp hwhole
      unfold enter at hp hwhole
      split at hp
      · exact hup (hp.trans (List.dropLast_prefix _))
      · next hname =>
        rw [if_neg hname] at hwhole
        exact hup ((List.prefix_concat_iff.mp hp).resolve_left hwhole)

/-- Once the output directory is made it stands, with all that is above it. -/
theorem standing_start {start : Host} (hcwd : ∀ p, p <+: cwd → start p = some .dir)
    (hrun : performAll cwd start [.makedirs out] = some h) :
    out ≠ [] ∧ Standing cwd out [] h := by
  have hout : out ≠ [] := by
    rintro rfl
    cases hrun
  rw [performAll_cons, perform_makedirs cwd start hout] at hrun
  obtain ⟨h₁, hmade, hend⟩ := Option.bind_eq_some_iff.mp hrun
  obtain rfl := Option.some.inj hend
  obtain ⟨_, hm⟩ := mkdirs_some hmade
  refine ⟨hout, fun p hp => ?_, fun y hy => absurd hy List.not_mem_nil,
    fun y hy => absurd hy List.not_mem_nil⟩
  rcases hp with hp | hp
  · exact hm.made p hp
  · rcases prefix_follow hp with hp | ⟨r, hr, rfl⟩
    · refine hm.dir.mpr (Or.inr (hcwd p ?_))
      split at hp
      · exact hp.trans List.nil_prefix
      · exact hp
    · exact hm.made _ (mem_trail.mpr ⟨r, hr, rfl⟩)

/-- The calls for objects that name nothing above the output directory stay inside it. -/
theorem objects_inside (hout : out ≠ []) (hs : Standing cwd out done h) (hdone : Clean done)
    (hsafe : NothingAbove (done ++ found))
    (hp : p ∈ touchedAll cwd h (found.flatMap fun x => (extractEntry d out x).1)) :
    resolve cwd out <+: p := by
  induction found generalizing done h with
  | nil => cases hp
  | cons x found ih =>
    rw [List.flatMap_cons, touchedAll_append] at hp
    rcases List.mem_append.mp hp with hp | hp
    · exact entry_inside hout hs (hsafe done x found rfl hdone) hp
    · cases hrun : performAll cwd h (extractEntry d out x).1 with
      | none =>
        rw [hrun] at hp
        cases hp
      | some h₁ =>
        rw [hrun] at hp
        obtain ⟨hs₁, hclash⟩ := standing_step hout hs hrun
        refine ih hs₁ (clean_concat hdone hclash) ?_ hp
        rwa [List.append_assoc, List.singleton_append]

/-! ## Extraction into a fresh directory -/

/-- A host with nothing but its root. -/
def emptyHost : Host := fun p => if p = [] then some .dir else none

/-- Below an output directory at the root there is nothing but what the objects
so far need. -/
structure Fresh (o : Str) (done : List Found) (h : Host) : Prop where
  dirs : ∀ p, h p = some .dir →
    p = [] ∨ ∃ q, (q = [] ∨ ∃ y ∈ done, Extracted y ∧ q <+: way y) ∧ p = follow [o] q
  files : ∀ p, IsFile h p → ∃ y ∈ done, Regular y ∧ p = goal [o] y

/-- Objects that name nothing above the output directory and do not clash. -/
structure Tame (done : List Found) : Prop where
  clean : Clean done
  inside : ∀ y ∈ done, Extracted y → ∀ q, q <+: components y.path → ¬Escapes q

variable {o : Str}

/-- Parts that lead down from the output directory. -/
theorem follow_below (hq : ¬Escapes q) (hdown : (wander q).2 ≠ []) :
    (wander q).1 = 0 ∧ follow [o] q = o :: (wander q).2 := by
  have hup : (wander q).1 = 0 := by
    by_contra hup
    exact hq ⟨hup, hdown⟩
  refine ⟨hup, ?_⟩
  rw [follow_wander, hup]
  rfl

/-- Below an output directory at the root, places tell the parts apart. -/
theorem wander_of_follow (hr : ¬Escapes r) (hq : ¬Escapes q) (hdown : (wander q).2 ≠ [])
    (h : follow [o] r = follow [o] q) : wander r = wander q := by
  obtain ⟨hup, hfollow⟩ := follow_below (o := o) hq hdown
  rw [hfollow] at h
  by_cases hnil : (wander r).2 = []
  · rw [follow_wander, hnil, List.append_nil] at h
    have hlen := congrArg List.length h
    rw [List.length_take, List.length_singleton, List.length_cons] at hlen
    have hpos := List.length_pos_iff.mpr hdown
    omega
  · obtain ⟨hup', hfollow'⟩ := follow_below (o := o) hr hnil
    rw [hfollow'] at h
    exact Prod.ext (hup'.trans hup.symm) (List.cons.inj h).2

/-- A regular file that clashes with nothing goes to names of its own. -/
theorem Tame.regular (ht : Tame done) (hy : y ∈ done) (hreg : Regular y) :
    (wander (components y.path)).2 ≠ [] ∧ ¬Escapes (components y.path) := by
  obtain ⟨front, back, hsplit⟩ := List.append_of_mem hy
  refine ⟨fun hnil => ht.clean front y back hsplit (Or.inr ⟨hreg, Or.inl hnil⟩), ?_⟩
  exact ht.inside y hy (Or.inr hreg.2) _ List.prefix_rfl

/-- A file on the way of parts is an earlier file that blocks them. -/
theorem Fresh.blocked (hf : Fresh o done h) (ht : Tame done) (hr : ¬Escapes r) (hrq : r <+: q)
    (hfile : IsFile h (follow [o] r)) : Blocked done q := by
  obtain ⟨y, hy, hreg, hplace⟩ := hf.files _ hfile
  obtain ⟨hdown, hesc⟩ := ht.regular hy hreg
  exact ⟨y, hy, hreg, r, hrq, wander_of_follow hr hesc hdown hplace⟩

/-- Parts that have come down some names have come through all those before. -/
theorem wander_through {names : List Str} (hn : names <+: (wander parts).2) :
    ∃ q, q <+: parts ∧ wander q = ((wander parts).1, names) := by
  induction parts using List.reverseRecOn generalizing names with
  | nil => exact ⟨[], List.prefix_rfl, by rw [List.prefix_nil.mp hn]; rfl⟩
  | append_singleton parts name ih =>
    by_cases hwhole : names = (wander (parts ++ [name])).2
    · exact ⟨_, List.prefix_rfl, hwhole ▸ rfl⟩
    · rw [wander_concat] at hn hwhole ⊢
      have hbelow : (wanderStep (wander parts) name).1 = (wander parts).1 ∧
          names <+: (wander parts).2 := by
        unfold wanderStep at hn hwhole ⊢
        by_cases hname : name = dotdot
        · rw [if_pos hname] at hn hwhole ⊢
          by_cases hnil : (wander parts).2 = []
          · rw [if_pos hnil] at hn hwhole
            exact absurd (List.prefix_nil.mp hn) hwhole
          · rw [if_neg hnil] at hn ⊢
            exact ⟨rfl, hn.trans (List.dropLast_prefix _)⟩
        · rw [if_neg hname] at hn hwhole ⊢
          exact ⟨rfl, (List.prefix_concat_iff.mp hn).resolve_left hwhole⟩
      obtain ⟨q, hq, hw⟩ := ih hbelow.2
      exact ⟨q, hq.trans (List.prefix_append _ _), hw.trans (by rw [hbelow.1])⟩

/-- An output directory right below the root. -/
structure AtRoot (o : Str) (out : Str) : Prop where
  named : out ≠ []
  base : resolve [] out = [o]
  trail : ∀ p ∈ trail [] out, p = [] ∨ p = [o]

/-- Taming a list tames what comes before its last entry. -/
theorem Tame.init (ht : Tame (done ++ [x])) : Tame done :=
  ⟨fun front y back hsplit => ht.clean front y (back ++ [x]) (by simp [hsplit]),
    fun y hy => ht.inside y (List.mem_append_left _ hy)⟩

/-- What is fresh for the entries so far is fresh for one more entry. -/
theorem Fresh.mono (hf : Fresh o done h) (x : Found) : Fresh o (done ++ [x]) h := by
  refine ⟨fun p hp => ?_, fun p hp => ?_⟩
  · refine (hf.dirs p hp).imp_right fun ⟨q, hq, he⟩ => ⟨q, hq.imp_right ?_, he⟩
    exact fun ⟨y, hy, hyq⟩ => ⟨y, List.mem_append_left _ hy, hyq⟩
  · obtain ⟨y, hy, hreg⟩ := hf.files p hp
    exact ⟨y, List.mem_append_left _ hy, hreg⟩

/-- No file is in the way of parts that nothing blocks and that stay below. -/
theorem fresh_clear (hs : Standing [] out done h) (hf : Fresh o done h)
    (ht : Tame done) (hq : ∀ r, r <+: q → ¬Escapes r) (hblocked : ¬Blocked done q)
    (hp : p ∈ trail [] out ∨ ∃ r, r <+: q ∧ p = follow [o] r) : ¬IsFile h p := by
  rcases hp with hp | ⟨r, hrq, rfl⟩
  · exact not_isFile_of_dir (hs.above p (Or.inl hp))
  · exact fun hfile => hblocked (hf.blocked ht (hq r hrq) hrq hfile)

/-- The places on the way of an object that does not clash are made. -/
theorem fresh_folder (hr : AtRoot o out) (hs : Standing [] out done h) (hf : Fresh o done h)
    (ht : Tame done) (hway : ∀ r, r <+: way x → ¬Escapes r) (hblocked : ¬Blocked done (way x))
    (hx : Extracted x) : ∃ h₁, perform [] h (.makedirs (folder out x)) = some h₁ ∧
      Fresh o (done ++ [x]) h₁ ∧ ∀ q, q <+: way x → h₁ (follow [o] q) = some .dir := by
  have hplaces : ∀ p, p ∈ trail [] (folder out x) ↔
      p ∈ trail [] out ∨ ∃ q, q <+: way x ∧ p = follow [o] q := fun p => by
    rw [mem_folder_trail hr.named, hr.base]
  have hclear : ∀ p ∈ trail [] (folder out x), ¬IsFile h p := fun p hp =>
    fresh_clear hs hf ht hway hblocked ((hplaces p).mp hp)
  obtain ⟨h₁, hrun, hm⟩ := mkdirs_made fun p hp => not_isFile_iff.mp (hclear p hp)
  refine ⟨h₁, (perform_makedirs [] h (folder_ne_nil hr.named x)).trans hrun,
    ⟨fun p hp => ?_, fun p hp => ?_⟩, fun q hq => hm.made _ ((hplaces _).mpr (Or.inr ⟨q, hq, rfl⟩))⟩
  · rcases hm.dir.mp hp with hp | hp
    · rcases (hplaces p).mp hp with hp | ⟨q, hq, rfl⟩
      · exact (hr.trail p hp).imp_right fun he => ⟨[], Or.inl rfl, he⟩
      · exact Or.inr ⟨q, Or.inr ⟨x, by simp, hx, hq⟩, rfl⟩
    · exact (hf.mono x).dirs p hp
  · exact (hf.mono x).files p ((hm.isFile hclear).mp hp)

/-- No directory stands where a regular file goes that does not clash. -/
theorem fresh_goal (hf : Fresh o (done ++ [x]) h) (ht : Tame (done ++ [x])) (hreg : Regular x) :
    h (goal [o] x) ≠ some .dir := by
  obtain ⟨hdown, hesc⟩ := ht.regular (List.mem_append_right _ (List.mem_singleton_self x)) hreg
  obtain ⟨_, hgoal⟩ := follow_below (o := o) hesc hdown
  intro hp
  rcases hf.dirs _ hp with hnil | ⟨q, hq, he⟩
  · unfold goal at hnil
    rw [hgoal] at hnil
    cases hnil
  · have hqesc : ¬Escapes q := by
      rcases hq with rfl | ⟨y, hy, hyx, hq⟩
      · exact fun hesc => hesc.1 rfl
      · exact ht.inside y hy hyx q (hq.trans (way_parts y).1)
    have hw := wander_of_follow hqesc hesc hdown he.symm
    rcases hq with rfl | ⟨y, hy, hyx, hq⟩
    · exact hdown (congrArg Prod.snd hw).symm
    · exact ht.clean done x [] rfl (Or.inr ⟨hreg, Or.inr ⟨y, hy, hyx, q, hq, hw⟩⟩)

/-- The directory of a regular file is on its way. -/
theorem goal_parent (hway : ∀ q, q <+: way x → h (follow [o] q) = some .dir)
    (hdown : (wander (components x.path)).2 ≠ []) (hesc : ¬Escapes (components x.path)) :
    h (goal [o] x).dropLast = some .dir := by
  obtain ⟨hup, hgoal⟩ := follow_below (o := o) hesc hdown
  obtain ⟨q, hq, hw⟩ := wander_through (List.dropLast_prefix (wander (components x.path)).2)
  have hne : q ≠ components x.path := by
    rintro rfl
    have hlen := congrArg (fun w => w.2.length) hw
    have hpos := List.length_pos_iff.mpr hdown
    simp only [List.length_dropLast] at hlen
    omega
  have hplace : (goal [o] x).dropLast = follow [o] q := by
    unfold goal
    rw [hgoal, List.dropLast_cons_of_ne_nil hdown, follow_wander, hw, hup]
    rfl
  rw [hplace]
  exact hway q ((way_parts x).2 q hq hne)

/-- The calls for a regular file, once its directory stands, where it can be opened. -/
theorem file_runs {h₁ h₂ : Host} (d : Bytes) (hreg : Regular x)
    (hfirst : perform cwd h (.makedirs (folder out x)) = some h₁)
    (hopen : create h₁ (goal (resolve cwd out) x) = some h₂) :
    (∃ h', performAll cwd h (extractEntry d out x).1 = some h' ∧
      FileAt h₁ h' (goal (resolve cwd out) x)) ∧
      goal (resolve cwd out) x ∈ touchedAll cwd h (extractEntry d out x).1 := by
  obtain ⟨rest, hentry, hafter⟩ := entry_regular d out hreg
  have hcreate : perform cwd h₁ (.create (target out x.path)) = some h₂ := by
    rw [← hopen, ← resolve_goal]
    rfl
  obtain ⟨_, hat⟩ := create_some hopen
  rw [← resolve_goal] at hat ⊢
  obtain ⟨⟨h₃, hrest, hlast⟩, _⟩ := after_runs hafter hat.file
  refine ⟨⟨h₃, ?_, hlast.file, fun p hp => (hlast.others p hp).trans (hat.others p hp)⟩, ?_⟩
  · rw [hentry, performAll_cons, hfirst, Option.bind_some, performAll_cons, hcreate]
    exact hrest
  · rw [hentry]
    unfold touchedAll
    rw [hfirst]
    refine List.mem_append_right _ ?_
    unfold touchedAll
    refine List.mem_append_left _ ?_
    unfold touched
    dsimp only
    rw [hcreate]
    exact List.mem_singleton_self _

/-- Whatever is made on the way of an object is touched. -/
theorem made_touched (hout : out ≠ []) (d : Bytes) (hx : Extracted x)
    (hp : p ∈ made h (trail cwd (folder out x))) :
    p ∈ touchedAll cwd h (extractEntry d out x).1 := by
  have hfirst : touched cwd h (.makedirs (folder out x)) = made h (trail cwd (folder out x)) :=
    if_neg (folder_ne_nil hout x)
  obtain ⟨rest, hentry⟩ : ∃ rest, (extractEntry d out x).1 = .makedirs (folder out x) :: rest := by
    by_cases hdir : S_ISDIR x.inode.mode = true
    · exact ⟨[], entry_dir hdir⟩
    · obtain ⟨rest, hentry, _⟩ :=
        entry_regular d out ⟨Bool.eq_false_iff.mpr hdir, hx.resolve_left hdir⟩
      exact ⟨_, hentry⟩
  rw [hentry]
  unfold touchedAll
  exact List.mem_append_left _ (hfirst ▸ hp)

/-- An object that names nothing above the output directory and does not clash
is extracted into a fresh one. -/
theorem fresh_step (hr : AtRoot o out) (d : Bytes) (hs : Standing [] out done h)
    (hf : Fresh o done h) (ht : Tame (done ++ [x])) :
    ∃ h', performAll [] h (extractEntry d out x).1 = some h' ∧ Fresh o (done ++ [x]) h' := by
  by_cases hx : Extracted x
  · have hway : ∀ r, r <+: way x → ¬Escapes r := fun r hr =>
      ht.inside x (by simp) hx r (hr.trans (way_parts x).1)
    have hblocked : ¬Blocked done (way x) := fun hb => ht.clean done x [] rfl (Or.inl ⟨hx, hb⟩)
    obtain ⟨h₁, hfirst, hf₁, hmade⟩ := fresh_folder hr hs hf ht.init hway hblocked hx
    by_cases hdir : S_ISDIR x.inode.mode = true
    · refine ⟨h₁, ?_, hf₁⟩
      rw [entry_dir hdir, performAll_cons, hfirst]
      rfl
    · have hreg : Regular x := ⟨Bool.eq_false_iff.mpr hdir, hx.resolve_left hdir⟩
      obtain ⟨hdown, hesc⟩ := ht.regular (List.mem_append_right _ (List.mem_singleton_self x)) hreg
      obtain ⟨h₂, hopen⟩ := create_of_free (fresh_goal hf₁ ht hreg) (goal_parent hmade hdown hesc)
      rw [← hr.base] at hopen
      obtain ⟨⟨h₃, hrun, hat⟩, _⟩ := file_runs d hreg hfirst hopen
      rw [hr.base] at hat
      refine ⟨h₃, hrun, fun p hp => ?_, fun p hp => ?_⟩
      · have hne : p ≠ goal [o] x := fun he => not_isFile_of_dir hp (he ▸ hat.file)
        exact hf₁.dirs p (hat.others p hne ▸ hp)
      · by_cases he : p = goal [o] x
        · exact ⟨x, by simp, hreg, he⟩
        · obtain ⟨c, e, hc⟩ := hp
          exact hf₁.files p ⟨c, e, hat.others p he ▸ hc⟩
  · exact ⟨h, by rw [entry_other hx]; rfl, hf.mono x⟩

/-- Objects that name nothing above the output directory and do not clash are
extracted into a fresh one. -/
theorem fresh_runs (hr : AtRoot o out) (d : Bytes) (hs : Standing [] out [] h) (hf : Fresh o [] h)
    (ht : Tame done) :
    ∃ h', performAll [] h (done.flatMap fun x => (extractEntry d out x).1) = some h' ∧
      Standing [] out done h' ∧ Fresh o done h' := by
  induction done using List.reverseRecOn with
  | nil => exact ⟨h, rfl, hs, hf⟩
  | append_singleton done x ih =>
    obtain ⟨h₁, hrun, hs₁, hf₁⟩ := ih ht.init
    obtain ⟨h₂, hone, hf₂⟩ := fresh_step hr d hs₁ hf₁ ht
    refine ⟨h₂, ?_, (standing_step hr.named hs₁ hone).1, hf₂⟩
    rw [List.flatMap_append, performAll_append, hrun, List.flatMap_singleton]
    exact hone

/-- The first name above the place that parts start from. -/
theorem escapes_first {name : Str} (hq : ¬Escapes q) (hesc : Escapes (q ++ [name])) :
    (wander q).1 ≠ 0 ∧ (wander q).2 = [] ∧ (wander (q ++ [name])).2 = [name] := by
  obtain ⟨hup, hdown⟩ := hesc
  rw [wander_concat] at hup hdown ⊢
  unfold wanderStep at hup hdown ⊢
  by_cases hname : name = dotdot
  · rw [if_pos hname] at hup hdown
    by_cases hnil : (wander q).2 = []
    · rw [if_pos hnil] at hdown
      exact absurd rfl hdown
    · rw [if_neg hnil] at hup
      exact absurd ⟨hup, hnil⟩ hq
  · rw [if_neg hname] at hup ⊢
    have hnil : (wander q).2 = [] := by
      by_contra hnil
      exact hq ⟨hup, hnil⟩
    exact ⟨hup, hnil, by rw [hnil]; rfl⟩

/-- Where parts come to names above an output directory that are not its own is
not in that directory. -/
theorem not_inside (hesc : Escapes q) (ho : o ∉ (wander q).2) : ¬[o] <+: follow [o] q := fun hp =>
  ho (follow_above hesc.1 o ▸ hp.subset (List.mem_singleton_self o))

/-- Nor is it a place that other parts come to without such names. -/
theorem follow_ne_of_escapes (hesc : Escapes q) (ho : o ∉ (wander q).2) (hr : ¬Escapes r) :
    follow [o] q ≠ follow [o] r := by
  intro he
  rcases follow_cases [o] r with hin | habove | hesc'
  · exact not_inside hesc ho (he ▸ hin)
  · rw [← he] at habove
    rcases List.prefix_cons_iff.mp habove with hnil | ⟨rest, hrest, _⟩
    · exact hesc.2 ((follow_above hesc.1 o).symm.trans hnil)
    · exact not_inside hesc ho (hrest ▸ ⟨rest, rfl⟩)
  · exact hr hesc'

/-- No directory stands there, when the objects so far have made none with such names. -/
theorem Fresh.no_dir (hf : Fresh o done h)
    (hway : ∀ y ∈ done, Extracted y → ∀ r, r <+: way y → ¬Escapes r) (hesc : Escapes q)
    (ho : o ∉ (wander q).2) : h (follow [o] q) ≠ some .dir := by
  intro hp
  rcases hf.dirs _ hp with hnil | ⟨r, hr, he⟩
  · exact hesc.2 ((follow_above hesc.1 o).symm.trans hnil)
  · refine follow_ne_of_escapes hesc ho ?_ he
    rcases hr with rfl | ⟨y, hy, hyx, hry⟩
    · exact fun h => h.1 rfl
    · exact hway y hy hyx r hry

/-- A tame object has no such name on its way. -/
theorem Tame.on_way (ht : Tame done) (hy : y ∈ done) (hyx : Extracted y) (hr : r <+: way y) :
    ¬Escapes r :=
  ht.inside y hy hyx r (hr.trans (way_parts y).1)

/-- A name above the output directory on the way of an object is made. -/
theorem escape_made (hr : AtRoot o out) (d : Bytes) (hs : Standing [] out done h)
    (hf : Fresh o done h) (ht : Tame done) {name : Str} (hx : Extracted x)
    (hway : q ++ [name] <+: way x) (hesc : Escapes (q ++ [name]))
    (hfirst : ∀ r, r <+: q → ¬Escapes r) (hblocked : ¬Blocked done q)
    (ho : o ∉ (wander (q ++ [name])).2) :
    follow [o] (q ++ [name]) ∈ touchedAll [] h (extractEntry d out x).1 := by
  have hnone : h (follow [o] (q ++ [name])) = none := by
    by_contra hsome
    by_cases hfile : IsFile h (follow [o] (q ++ [name]))
    · obtain ⟨y, hy, hreg, he⟩ := hf.files _ hfile
      exact follow_ne_of_escapes hesc ho (ht.regular hy hreg).2 he
    · exact hf.no_dir (fun y hy hyx r => ht.on_way hy hyx) hesc ho
        ((not_isFile_iff.mp hfile).resolve_left hsome)
  obtain ⟨hparts, habs⟩ := components_folder hr.named x
  have hstart : (if IsAbsolute (folder out x) then [] else ([] : List Str)) = [] := ite_self _
  have hbase : follow [] (components out) = [o] := by
    rw [← hr.base]
    unfold resolve
    rw [ite_self]
  refine made_touched hr.named d hx ?_
  unfold trail
  rw [hparts, hstart, ← hbase, ← follow_append]
  refine mem_made ((List.prefix_append_right_inj _).mpr hway) ?_ fun r hr' hne => ?_
  · rw [follow_append, hbase]
    exact hnone
  · refine fresh_clear hs hf ht hfirst hblocked ?_
    rcases prefix_append_cases hr' with hr' | ⟨r, hrq, rfl⟩
    · exact Or.inl (mem_trail.mpr ⟨r, hr', by rw [ite_self]⟩)
    · have hr'' := (List.prefix_concat_iff.mp hrq).resolve_left fun he => hne (by rw [he])
      exact Or.inr ⟨r, hr'', by rw [follow_append, hbase]⟩

/-- A regular file whose own name is above the output directory is opened. -/
theorem escape_opened (hr : AtRoot o out) (d : Bytes) (hs : Standing [] out done h)
    (hf : Fresh o done h) (ht : Tame done) {name : Str} (hreg : Regular x)
    (hwhole : q ++ [name] = components x.path) (hwq : way x <+: q) (hesc : Escapes (q ++ [name]))
    (hfirst : ∀ r, r <+: q → ¬Escapes r) (hblocked : ¬Blocked done q)
    (ho : o ∉ (wander (q ++ [name])).2) :
    follow [o] (q ++ [name]) ∈ touchedAll [] h (extractEntry d out x).1 := by
  have hnot : ¬Blocked done (way x) := fun ⟨y, hy, hyr, r, hrw, hw⟩ =>
    hblocked ⟨y, hy, hyr, r, hrw.trans hwq, hw⟩
  obtain ⟨h₁, hmkdir, hf₁, hmade⟩ := fresh_folder hr hs hf ht
    (fun r hrw => hfirst r (hrw.trans hwq)) hnot (Or.inr hreg.2)
  have hgoal : goal [o] x = follow [o] (q ++ [name]) := by rw [hwhole]; rfl
  have hfree : h₁ (goal [o] x) ≠ some .dir := by
    rw [hgoal]
    refine hf₁.no_dir (fun y hy hyx r hry => ?_) hesc ho
    rcases List.mem_append.mp hy with hy | hy
    · exact ht.on_way hy hyx hry
    · exact hfirst r ((List.mem_singleton.mp hy ▸ hry).trans hwq)
  obtain ⟨hup, hnil, hnames⟩ := escapes_first (hfirst q List.prefix_rfl) hesc
  have hparent : h₁ (goal [o] x).dropLast = some .dir := by
    have hdrop : (goal [o] x).dropLast = follow [o] q := by
      rw [hgoal, follow_above hesc.1 o, hnames, follow_above hup, hnil]
      rfl
    rw [hdrop]
    exact hmade q (way_of_concat (by rw [hwhole]))
  obtain ⟨h₂, hopen⟩ := create_of_free hfree hparent
  rw [← hr.base] at hopen
  have htouched := (file_runs d hreg hmkdir hopen).2
  rwa [hr.base, hgoal] at htouched

/-- An object whose way comes to a name above the output directory past no
earlier file touches it. -/
theorem escape_touched (hr : AtRoot o out) (d : Bytes) (hs : Standing [] out done h)
    (hf : Fresh o done h) (ht : Tame done) {name : Str} (hx : Extracted x)
    (hq : q ++ [name] <+: components x.path) (hesc : Escapes (q ++ [name]))
    (hfirst : ∀ r, r <+: q → ¬Escapes r) (hblocked : ¬Blocked done q)
    (ho : o ∉ (wander (q ++ [name])).2) :
    follow [o] (q ++ [name]) ∈ touchedAll [] h (extractEntry d out x).1 := by
  by_cases hway : q ++ [name] <+: way x
  · exact escape_made hr d hs hf ht hx hway hesc hfirst hblocked ho
  · -- the object is a regular file, and it is its own name that is above
    have hwhole : q ++ [name] = components x.path := by
      by_contra hne
      exact hway ((way_parts x).2 _ hq hne)
    have hdir : ¬S_ISDIR x.inode.mode = true := by
      intro hdir
      refine hway ?_
      rw [hwhole]
      unfold way
      rw [if_pos hdir]
    have hwq : way x <+: q := by
      have hpre := (way_parts x).1
      rw [← hwhole] at hpre
      exact (List.prefix_concat_iff.mp hpre).resolve_left fun he => hway (he ▸ List.prefix_rfl)
    exact escape_opened hr d hs hf ht ⟨Bool.eq_false_iff.mpr hdir, hx.resolve_left hdir⟩ hwhole hwq
      hesc hfirst hblocked ho

/-- Parts that come to names above the place they start from have a first such name. -/
theorem first_escape (hq : ∃ r, r <+: q ∧ Escapes r) : ∃ front name,
    front ++ [name] <+: q ∧ Escapes (front ++ [name]) ∧ ∀ r, r <+: front → ¬Escapes r := by
  induction q using List.reverseRecOn with
  | nil =>
    obtain ⟨r, hr, hesc⟩ := hq
    rw [List.prefix_nil.mp hr] at hesc
    exact absurd rfl hesc.1
  | append_singleton q name ih =>
    by_cases hbefore : ∃ r, r <+: q ∧ Escapes r
    · obtain ⟨front, name', hpre, hesc, hfirst⟩ := ih hbefore
      exact ⟨front, name', hpre.trans (List.prefix_append _ _), hesc, hfirst⟩
    · obtain ⟨r, hr, hesc⟩ := hq
      rcases List.prefix_concat_iff.mp hr with rfl | hr
      · exact ⟨q, name, List.prefix_rfl, hesc, fun r hr hesc' => hbefore ⟨r, hr, hesc'⟩⟩
      · exact absurd ⟨r, hr, hesc⟩ hbefore

/-- A name that is in none of a list of names, for an output directory. -/
def otherName (names : List Str) : Str := List.replicate ((names.map List.length).sum + 3) 97

/-- The name made up for a list of names is none of them. -/
theorem otherName_notMem (names : List Str) : otherName names ∉ names := by
  intro h
  have hle := List.le_sum_of_mem (List.mem_map_of_mem (f := List.length) h)
  unfold otherName at hle
  rw [List.length_replicate] at hle
  omega

/-- The made-up name is a single component of a path. -/
theorem components_otherName (names : List Str) :
    components (sep :: otherName names) = [otherName names] := by
  have hsep : sep ∉ otherName names := fun h => absurd (List.eq_of_mem_replicate h) (by decide)
  have hlen : (otherName names).length = (names.map List.length).sum + 3 := List.length_replicate
  have hname := components_of_name hsep (by intro h; rw [h] at hlen; cases hlen)
    (by intro h; rw [h, show dot.length = 1 from rfl] at hlen; omega)
  rw [← hname, ← List.nil_append (sep :: otherName names), components_append_sep, components_nil,
    List.nil_append]

/-- The made-up name is not the parent directory. -/
theorem otherName_ne_dotdot (names : List Str) : otherName names ≠ dotdot := by
  intro heq
  have hlen := congrArg List.length heq
  unfold otherName at hlen
  rw [List.length_replicate, show dotdot.length = 2 from rfl] at hlen
  omega

/-- The made-up name at the top of the image is an entry of the root. -/
theorem atRoot_otherName (names : List Str) : AtRoot (otherName names) (sep :: otherName names) := by
  have hone : follow [] [otherName names] = [otherName names] :=
    follow_names fun n hn => List.mem_singleton.mp hn ▸ otherName_ne_dotdot names
  refine ⟨List.cons_ne_nil _ _, ?_, fun p hp => ?_⟩
  · unfold resolve
    rw [ite_self, components_otherName, hone]
  · obtain ⟨r, hr, rfl⟩ := mem_trail.mp hp
    rw [components_otherName] at hr
    rw [ite_self]
    rcases List.prefix_cons_iff.mp hr with rfl | ⟨t, rfl, ht⟩
    · exact Or.inl rfl
    · rw [List.prefix_nil.mp ht]
      exact Or.inr hone

/-- On a host with nothing but its root, an output directory right below that
is made, and nothing else. -/
theorem fresh_start (hr : AtRoot o out) : ∃ h, performAll [] emptyHost [.makedirs out] = some h ∧
    Standing [] out [] h ∧ Fresh o [] h := by
  have hempty : ∀ p, emptyHost p = some .dir → p = [] := by
    intro p hp
    unfold emptyHost at hp
    split at hp
    · assumption
    · cases hp
  have hnofile : ∀ p, ¬IsFile emptyHost p := by
    rintro p ⟨c, e, hc⟩
    unfold emptyHost at hc
    split at hc <;> cases hc
  obtain ⟨h, hrun, hm⟩ := mkdirs_made (h := emptyHost) (l := trail [] out) fun p _ =>
    not_isFile_iff.mp (hnofile p)
  have hall : performAll [] emptyHost [.makedirs out] = some h := by
    rw [performAll_cons, perform_makedirs [] emptyHost hr.named, hrun]
    rfl
  refine ⟨h, hall, (standing_start (fun p hp => ?_) hall).2, fun p hp => ?_, fun p hp => ?_⟩
  · rw [List.prefix_nil.mp hp]
    rfl
  · rcases hm.dir.mp hp with hp | hp
    · exact (hr.trail p hp).imp_right fun he => ⟨[], Or.inl rfl, he⟩
    · exact Or.inl (hempty p hp)
  · exact absurd ((hm.isFile fun p _ => hnofile p).mp hp) (hnofile p)

/-- The objects before one are tame if they are clean and safe. -/
theorem tame_of_safe (hclean : Clean front)
    (hsafe : ∀ l x r, front = l ++ x :: r → Extracted x → Safe l x) : Tame front := by
  refine ⟨hclean, fun y hy hyx q hq => ?_⟩
  obtain ⟨l, r, hsplit⟩ := List.append_of_mem hy
  exact not_escapes (hclean l y r hsplit) (hsafe l y r hsplit hyx) hyx hq

/-- The condition that the objects make on their way is needed: the first that
breaks it leaves a fresh output directory. -/
theorem safe_of_staysInside (hd : StaysInside d) (hlist : listed d = front ++ x :: found)
    (ht : Tame front) (hx : Extracted x) : Safe front x := by
  intro q name hq hesc
  by_contra hblocked
  obtain ⟨r, name', hpre, hesc', hfirst⟩ := first_escape ⟨q ++ [name], List.prefix_rfl, hesc⟩
  have hrq : r <+: q := by
    refine List.prefix_of_prefix_length_le ((List.prefix_append r [name']).trans hpre)
      (List.prefix_append q [name]) ?_
    have hlen := hpre.length_le
    simp only [List.length_append, List.length_singleton] at hlen
    omega
  have hr := atRoot_otherName (wander (r ++ [name'])).2
  obtain ⟨h₀, hstart, hs₀, hf₀⟩ := fresh_start hr
  obtain ⟨h, hrun, hs, hf⟩ := fresh_runs hr d hs₀ hf₀ ht
  have hp := escape_touched hr d hs hf ht hx (hpre.trans hq) hesc' hfirst
    (fun ⟨y, hy, hyr, s, hs, hw⟩ => hblocked ⟨y, hy, hyr, s, hs.trans hrq, hw⟩)
    (otherName_notMem _)
  obtain ⟨hactions, hfirst'⟩ := main_actions d (sep :: otherName (wander (r ++ [name'])).2)
  have hmain := hfirst'.resolve_right (by rw [hlist]; simp)
  refine not_inside hesc' (otherName_notMem _) ?_
  nth_rewrite 1 [← hr.base]
  refine hd [] _ emptyHost h₀ (fun p hp => ?_) (hmain ▸ hstart) _ ?_
  · rw [List.prefix_nil.mp hp]
    rfl
  · rw [hactions, hlist, List.flatMap_append, touchedAll_append, hrun, List.flatMap_cons]
    refine List.mem_append_right _ ?_
    dsimp only
    rw [touchedAll_append]
    exact List.mem_append_left _ hp

/-- Extraction of an image stays inside the output directory, whatever that is
and whatever the host holds, if and only if no object that the loop comes to
names something above it on its way past no earlier file. -/
theorem stays_inside_iff (d : Bytes) : StaysInside d ↔ NothingAbove (listed d) := by
  constructor
  · intro hd front
    -- by the number of objects before: those are safe, so they are all tame
    induction hn : front.length using Nat.strong_induction_on generalizing front with
    | _ n ih =>
      intro x back hlist hclean hx
      refine safe_of_staysInside hd hlist (tame_of_safe hclean fun l y r hsplit hyx => ?_) hx
      refine ih l.length ?_ l rfl y (r ++ x :: back) (by rw [hlist, hsplit]; simp) ?_ hyx
      · rw [← hn, hsplit, List.length_append, List.length_cons]
        omega
      · intro l' z r' hsplit'
        exact hclean l' z (r' ++ y :: r) (by rw [hsplit, hsplit']; simp)
  · intro hl cwd out start h hcwd hrun p hp
    obtain ⟨hactions, hfirst⟩ := main_actions d out
    rw [hactions] at hp
    rcases hfirst with hfirst | hnil
    · rw [hfirst] at hrun
      obtain ⟨hout, hs⟩ := standing_start hcwd hrun
      exact objects_inside hout hs (fun front x back h => absurd h (by simp)) hl hp
    · rw [hnil] at hp
      cases hp

/-! ## An image made by hand -/

/-- The inode of an image that is made by hand. -/
def packedInode (mode size addr : ℕ) : Bytes :=
  encode 2 mode ++ encode 2 1 ++ encode 4 0 ++ encode 4 size ++ encode 3 addr ++
    List.replicate 49 0

/-- An image whose root directory has one entry, for an empty regular file. -/
def craftedImage (name : Bytes) : Bytes :=
  List.replicate (2 * BS + 64) 0 ++ packedInode 0x41ed 16 3 ++ packedInode 0x81a4 0 0 ++
    List.replicate (BS - 192) 0 ++ encode 2 3 ++ pad 14 name

/-- A file named `../x` on such an image goes next to the output directory. -/
theorem crafted_escapes :
    main (craftedImage [46, 46, 47, 120]) (str "out") =
        ([.makedirs (str "out")], [.makedirs (str "out/.."), .create (str "out/../x"),
          .write (str "out/../x") []], none) ∧
      resolve [] (str "out") = [str "out"] ∧ resolve [] (str "out/../x") = [str "x"] ∧
      ¬StaysInside (craftedImage [46, 46, 47, 120]) := by
  have hmain : main (craftedImage [46, 46, 47, 120]) (str "out") =
      ([.makedirs (str "out")], [.makedirs (str "out/.."), .create (str "out/../x"),
        .write (str "out/../x") []], none) := by decide +kernel
  have hout : resolve [] (str "out") = [str "out"] := by decide
  refine ⟨hmain, hout, by decide, fun h => ?_⟩
  -- on a host with nothing but its root, which is the working directory
  have hmade : performAll [] emptyHost [.makedirs (str "out")] =
      some (update (update emptyHost [] (some .dir)) [str "out"] (some .dir)) := by
    have htrail : trail [] (str "out") = [[], [str "out"]] := by decide
    rw [performAll_cons, perform_makedirs [] emptyHost (by decide), htrail, List.foldlM_cons,
      mkdir_of_free (not_isFile_iff.mpr (Or.inr rfl))]
    rw [Option.bind_eq_bind, Option.bind_some, List.foldlM_cons,
      mkdir_of_free (not_isFile_iff.mpr (Or.inl rfl))]
    rfl
  have hfile : [str "x"] ∈ touchedAll []
      (update (update emptyHost [] (some .dir)) [str "out"] (some .dir))
      [.makedirs (str "out/.."), .create (str "out/../x"), .write (str "out/../x") []] := by
    decide +kernel
  have hin := h [] (str "out") emptyHost _ (fun p hp => by rw [List.prefix_nil.mp hp]; rfl)
    (by rw [hmain]; exact hmade) [str "x"] (by rw [hmain]; exact hfile)
  rw [hout] at hin
  exact absurd hin (by decide)

end Sys16.ExtractInside
