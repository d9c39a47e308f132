import Sys16.S5Walk

/-!
# Extraction of an image by `tools/s5extract.py`

What the tool asks the host to do for an image and an output directory, in
order. It asks for each thing only when the host has done what came before:
the first call that the host refuses ends the run.
-/

namespace Sys16.S5Extract

open ByteStore LittleEndian PyText PyStruct PosixPath S5Reader S5Walk

/-- What is asked of the host. -/
inductive Action where
  /-- `os.makedirs(path, exist_ok=True)`. -/
  | makedirs (path : Str)
  /-- `open(path, 'wb')`. -/
  | create (path : Str)
  /-- `f.write(content)` to the file that was opened last. -/
  | write (path : Str) (content : Bytes)
  /-- `os.chmod(path, 0o755)`. -/
  | chmod (path : Str)
  deriving DecidableEq, Repr

/-- Where an object of the image goes. -/
def target (out path : Str) : Str := join out (lstrip path)

/-- One pass of the loop of `main`, and how it ends early. -/
def extractEntry (d : Bytes) (out : Str) (x : Found) : List Action × Option Failure :=
  let t := target out x.path
  if S_ISDIR x.inode.mode then ([.makedirs t], none)
  else if S_ISREG x.inode.mode then
    match data d x.inode with
    | .error e => ([.makedirs (dirname t), .create t], some e)
    | .ok content =>
      (.makedirs (dirname t) :: .create t :: .write t content ::
        if Int.land x.inode.mode 0o111 ≠ 0 then [.chmod t] else [], none)
  else ([], none)

/-- The loop of `main`: what it asks for as long as the host does it. -/
def extractAll (d : Bytes) (out : Str) : List Found → List Action × Option Failure
  | [] => ([], none)
  | x :: xs =>
    match extractEntry d out x with
    | (actions, some e) => (actions, some e)
    | (actions, none) => (actions ++ (extractAll d out xs).1, (extractAll d out xs).2)

/-- `main`: the directory that is made first, what is asked for in it as long as
the host does it, and how the image ends the run early. -/
def main (d : Bytes) (out : Str) : List Action × List Action × Option Failure :=
  match sizes d with
  | .error e => ([], [], some e)
  | .ok _ =>
    match walk d with
    | .error e => ([.makedirs out], [], some e)
    | .ok found => ([.makedirs out], extractAll d out found)

/-! ## Where it goes -/

variable {d : Bytes} {out path : Str} {cwd place : List Str} {x : Found} {xs : List Found}
  {a : Action}

/-- An object of the image that the host is asked for. -/
def Extracted (x : Found) : Prop := S_ISDIR x.inode.mode = true ∨ S_ISREG x.inode.mode = true

/-- A regular file whose contents cannot be read ends the loop. -/
def Ends (d : Bytes) (x : Found) : Prop :=
  S_ISDIR x.inode.mode = false ∧ S_ISREG x.inode.mode = true ∧ (data d x.inode).isOk = false

instance (d : Bytes) (x : Found) : Decidable (Ends d x) := inferInstanceAs (Decidable (_ ∧ _))

/-- The objects the loop comes to. -/
def reached (d : Bytes) : List Found → List Found
  | [] => []
  | x :: xs => if Ends d x then [x] else x :: reached d xs

/-- The objects that are extracted from an image, up to one that cannot be read. -/
def listed (d : Bytes) : List Found :=
  match sizes d, walk d with
  | .ok _, .ok found => reached d found
  | _, _ => []

theorem extractEntry_ends : (extractEntry d out x).2.isSome = true ↔ Ends d x := by
  unfold extractEntry Ends
  dsimp only
  cases S_ISDIR x.inode.mode <;> cases S_ISREG x.inode.mode <;> cases data d x.inode <;>
    simp [Except.isOk, Except.toBool]

/-- What the loop asks for is what it asks for each object it comes to. -/
theorem extractAll_actions (d : Bytes) (out : Str) (xs : List Found) :
    (extractAll d out xs).1 = (reached d xs).flatMap fun x => (extractEntry d out x).1 := by
  induction xs with
  | nil => rfl
  | cons x xs ih =>
    have hends : (extractEntry d out x).2.isSome = true ↔ Ends d x := extractEntry_ends
    unfold extractAll reached
    cases hentry : extractEntry d out x with
    | mk actions failure =>
      rw [hentry] at hends
      cases failure with
      | none =>
        rw [if_neg (fun h => by simpa using hends.mpr h), List.flatMap_cons, hentry]
        exact congrArg (actions ++ ·) ih
      | some e =>
        rw [if_pos (hends.mp rfl), List.flatMap_singleton, hentry]

/-- What is asked for inside the output directory, once that is to be made. -/
theorem main_actions (d : Bytes) (out : Str) :
    (main d out).2.1 = (listed d).flatMap (fun x => (extractEntry d out x).1) ∧
      ((main d out).1 = [.makedirs out] ∨ listed d = []) := by
  unfold main listed
  cases sizes d with
  | error e => exact ⟨rfl, Or.inr rfl⟩
  | ok s =>
    cases walk d with
    | error e => exact ⟨rfl, Or.inl rfl⟩
    | ok found => exact ⟨extractAll_actions d out found, Or.inl rfl⟩

theorem mem_actions_iff : a ∈ (main d out).2.1 ↔ ∃ x ∈ listed d, a ∈ (extractEntry d out x).1 := by
  rw [(main_actions d out).1, List.mem_flatMap]

/-- The way to where an object goes is the way to the output directory and on
from there. -/
theorem mem_trail_target : place ∈ trail cwd (target out path) ↔
    place ∈ trail cwd out ∨ ∃ q, q <+: components path ∧ place = follow (resolve cwd out) q := by
  have habs := lstrip_not_absolute path
  refine mem_trail_append ?_ (absolute_join habs)
  unfold target
  rw [components_join habs, components_lstrip]

/-! ## Runs that do not end early -/

theorem reached_eq (h : ∀ x ∈ xs, ¬Ends d x) : reached d xs = xs := by
  induction xs with
  | nil => rfl
  | cons x xs ih =>
    unfold reached
    rw [if_neg (h x List.mem_cons_self), ih fun y hy => h y (List.mem_cons_of_mem x hy)]

theorem extractAll_complete (h : ∀ x ∈ xs, ¬Ends d x) : (extractAll d out xs).2 = none := by
  induction xs with
  | nil => rfl
  | cons x xs ih =>
    have hends : (extractEntry d out x).2.isSome = true ↔ Ends d x := extractEntry_ends
    unfold extractAll
    cases hentry : extractEntry d out x with
    | mk actions failure =>
      rw [hentry] at hends
      cases failure with
      | none => exact ih fun y hy => h y (List.mem_cons_of_mem x hy)
      | some e => exact absurd (hends.mp rfl) (h x List.mem_cons_self)

/-- What is written to a file is the contents of an object with its path. -/
theorem write_mem_iff {content : Bytes} : .write path content ∈ (extractEntry d out x).1 ↔
    S_ISDIR x.inode.mode = false ∧ S_ISREG x.inode.mode = true ∧
      path = target out x.path ∧ data d x.inode = .ok content := by
  unfold extractEntry
  dsimp only
  cases S_ISDIR x.inode.mode with
  | true => simp
  | false =>
    cases S_ISREG x.inode.mode with
    | false => simp
    | true =>
      cases data d x.inode with
      | error e => simp
      | ok other =>
        by_cases hmode : Int.land x.inode.mode 0o111 ≠ 0
        · simp [hmode, eq_comm]
        · simp [hmode, eq_comm]

/-- An object goes below the output directory by the names of its path. -/
theorem resolve_target {names : List Str} (h : ∀ a ∈ names, IsName a) :
    resolve cwd (target out (spell names)) = resolve cwd out ++ names := by
  unfold target
  rw [resolve_join cwd (lstrip_not_absolute _), components_lstrip, components_spell h]
  exact follow_names fun a ha => (h a ha).ne_dotdot

end Sys16.S5Extract
