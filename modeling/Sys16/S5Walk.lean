import Sys16.PosixPath
import Sys16.S5Reader

/-!
# The directory walk of `tools/s5fs.py`

`S5.walk` goes down a directory tree with a bound on the depth. On an image
whose directories can be read, and hold distinct names without separators, it
lists the paths of at most thirteen names, each once, with the inode that the
path leads to.
-/

namespace Sys16.S5Walk

open PyText PyStruct PosixPath S5Reader

/-- `stat.S_ISDIR`. -/
def S_ISDIR (mode : ℤ) : Bool := Int.land mode 0o170000 == 0o040000

/-- `stat.S_ISREG`. -/
def S_ISREG (mode : ℤ) : Bool := Int.land mode 0o170000 == 0o100000

/-- One object that `walk` lists. -/
structure Found where
  path : Str
  ino : ℕ
  inode : DiskInode
  deriving DecidableEq, Repr

/-- One pass of the loop of `walk`, with what lists a directory further down. -/
def walkEntry (d : Bytes) (below : ℕ → Str → Except Failure (List Found)) (path : Str)
    (e : ℕ × Str) : Except Failure (List Found) :=
  if e.2 = dot ∨ e.2 = dotdot then .ok []
  else do
    let i ← inode d e.1
    let p := path ++ sep :: e.2
    let under ← if S_ISDIR i.mode then below e.1 p else .ok []
    return ⟨p, e.1, i⟩ :: under

/-- The loop of `walk`. -/
def walkDir (d : Bytes) (below : ℕ → Str → Except Failure (List Found)) (ino : ℕ) (path : Str) :
    Except Failure (List Found) := do
  let ents ← readdir d ino
  List.flatten <$> ents.mapM (walkEntry d below path)

/-- `S5.walk`, with how many levels down it may still go, which is `12 - depth`. -/
def walkFrom (d : Bytes) : ℕ → ℕ → Str → Except Failure (List Found)
  | 0 => walkDir d fun _ _ => .ok []
  | levels + 1 => walkDir d (walkFrom d levels)

/-- `S5.walk` with its default arguments. -/
def walk (d : Bytes) : Except Failure (List Found) := walkFrom d 12 2 []

/-! ## What a path leads to -/

variable {d : Bytes} {ino n k : ℕ} {name path : Str} {names : List Str} {e : ℕ × Str}
  {below : ℕ → Str → Except Failure (List Found)} {ents : List (ℕ × Str)} {x : Found}

/-- An entry other than `.` and `..`. -/
def Proper (e : ℕ × Str) : Prop := e.2 ≠ dot ∧ e.2 ≠ dotdot

instance (e : ℕ × Str) : Decidable (Proper e) := inferInstanceAs (Decidable (_ ∧ _))

/-- A directory holds a name for an inode. -/
def HasEntry (d : Bytes) (ino : ℕ) (name : Str) (n : ℕ) : Prop :=
  ∃ ents, readdir d ino = .ok ents ∧ (n, name) ∈ ents ∧ Proper (n, name)

/-- An inode is that of a directory. -/
def IsDirectory (d : Bytes) (n : ℕ) : Prop := ∃ i, inode d n = .ok i ∧ S_ISDIR i.mode = true

/-- Names lead from a directory to an inode. -/
inductive Below (d : Bytes) : ℕ → List Str → ℕ → Prop
  | entry {ino n : ℕ} {name : Str} (h : HasEntry d ino name n) : Below d ino [name] n
  | under {ino sub n : ℕ} {name : Str} {names : List Str} (h : HasEntry d ino name sub)
      (hdir : IsDirectory d sub) (hb : Below d sub names n) : Below d ino (name :: names) n

/-- The path that names spell. -/
def spell (names : List Str) : Str := names.flatMap fun name => sep :: name

/-- A directory that is as a filesystem keeps it: its names are distinct and
hold no separator, and each leads to an inode. -/
structure DirOk (d : Bytes) (ents : List (ℕ × Str)) : Prop where
  distinct : ents.Pairwise fun e e' => Proper e → Proper e' → e.2 ≠ e'.2
  names : ∀ e ∈ ents, Proper e → sep ∉ e.2
  inodes : ∀ e ∈ ents, Proper e → ∃ i, inode d e.1 = .ok i

/-- A directory and all those below it are as a filesystem keeps them. -/
structure Sound (d : Bytes) (ino : ℕ) : Prop where
  top : ∃ ents, readdir d ino = .ok ents ∧ DirOk d ents
  below : ∀ names n, Below d ino names n → IsDirectory d n →
    ∃ ents, readdir d n = .ok ents ∧ DirOk d ents

/-- A directory below a sound one is sound. -/
theorem Sound.of_entry (h : Sound d ino) (he : HasEntry d ino name n) (hdir : IsDirectory d n) :
    Sound d n :=
  ⟨h.below [name] n (.entry he) hdir, fun names m hb hm =>
    h.below (name :: names) m (.under he hdir hb) hm⟩

theorem spell_cons (name : Str) (names : List Str) :
    spell (name :: names) = sep :: name ++ spell names := List.flatMap_cons

theorem spell_concat (names : List Str) (name : Str) :
    spell (names ++ [name]) = spell names ++ sep :: name := by
  unfold spell
  rw [List.flatMap_append, List.flatMap_singleton]

/-- The parts of a path are the names it spells. -/
theorem components_spell (h : ∀ a ∈ names, IsName a) : components (spell names) = names := by
  induction names using List.reverseRecOn with
  | nil => exact components_nil
  | append_singleton names name ih =>
    have hname := h name (by simp)
    rw [spell_concat, components_append_sep, ih fun a ha => h a (List.mem_append_left _ ha),
      components_of_name hname.sep_notMem hname.ne_nil hname.ne_dot]

/-- The first name of a path. -/
theorem first_name (h : sep ∉ name) (names : List Str) :
    (spell (name :: names)).tail.takeWhile (· ≠ sep) = name := by
  have hall : ∀ c ∈ name, decide (c ≠ sep) = true := by
    intro c hc
    rw [decide_eq_true_eq]
    rintro rfl
    exact h hc
  rw [spell_cons, List.cons_append, List.tail_cons, List.takeWhile_append_of_pos hall]
  cases names with
  | nil => simp [spell]
  | cons b names =>
    rw [spell_cons, List.cons_append, List.takeWhile_cons_of_neg (by simp), List.append_nil]

/-! ## One directory -/

/-- What a lister of at most `k` names finds from a directory. -/
def Lists (d : Bytes) (k ino : ℕ) (path : Str) (x : Found) : Prop :=
  inode d x.ino = .ok x.inode ∧
    ∃ names, names.length ≤ k ∧ Below d ino names x.ino ∧ x.path = path ++ spell names

/-- A lister finds each path of at most `k` names once. -/
def Lister (d : Bytes) (k : ℕ) (below : ℕ → Str → Except Failure (List Found)) : Prop :=
  ∀ ino path, Sound d ino → ∃ found, below ino path = .ok found ∧
    (found.map Found.path).Nodup ∧ ∀ x, x ∈ found ↔ Lists d k ino path x

/-- What is found through one entry. -/
def Through (d : Bytes) (k : ℕ) (path : Str) (e : ℕ × Str) (x : Found) : Prop :=
  inode d x.ino = .ok x.inode ∧ ∃ names, names.length ≤ k ∧
    (names = [] ∧ x.ino = e.1 ∨ IsDirectory d e.1 ∧ Below d e.1 names x.ino) ∧
    x.path = path ++ spell (e.2 :: names)

/-- The first step of a path. -/
theorem below_iff : Below d ino names n ↔ ∃ name rest sub, names = name :: rest ∧
    HasEntry d ino name sub ∧ (rest = [] ∧ n = sub ∨ IsDirectory d sub ∧ Below d sub rest n) := by
  constructor
  · intro h
    cases h with
    | entry h => exact ⟨_, [], n, rfl, h, Or.inl ⟨rfl, rfl⟩⟩
    | under h hdir hb => exact ⟨_, _, _, rfl, h, Or.inr ⟨hdir, hb⟩⟩
  · rintro ⟨name, rest, sub, rfl, h, ⟨rfl, rfl⟩ | ⟨hdir, hb⟩⟩
    · exact .entry h
    · exact .under h hdir hb

theorem Below.ne_nil (h : Below d ino names n) : names ≠ [] := by
  cases h <;> exact List.cons_ne_nil _ _

/-- One more step from the end of a path. -/
theorem Below.concat {sub : ℕ} (h : Below d ino names sub) (hdir : IsDirectory d sub)
    (he : HasEntry d sub name n) : Below d ino (names ++ [name]) n := by
  induction h with
  | entry hfirst => exact .under hfirst hdir (.entry he)
  | under hfirst hsub _ ih => exact .under hfirst hsub (ih hdir he)

/-- Through an entry there is the object itself and, in a directory, what is below it. -/
theorem through_iff : Through d k path e x ↔
    (inode d x.ino = .ok x.inode ∧ x.ino = e.1 ∧ x.path = path ++ sep :: e.2) ∨
      IsDirectory d e.1 ∧ Lists d k e.1 (path ++ sep :: e.2) x := by
  have hspell : ∀ names, path ++ spell (e.2 :: names) = path ++ sep :: e.2 ++ spell names := by
    intro names
    rw [spell_cons, List.append_assoc]
  unfold Through Lists
  simp only [hspell]
  constructor
  · rintro ⟨hinode, names, hk, ⟨rfl, hino⟩ | ⟨hdir, hb⟩, hpath⟩
    · exact Or.inl ⟨hinode, hino, hpath.trans (List.append_nil _)⟩
    · exact Or.inr ⟨hdir, hinode, names, hk, hb, hpath⟩
  · rintro (⟨hinode, hino, hpath⟩ | ⟨hdir, hinode, names, hk, hb, hpath⟩)
    · exact ⟨hinode, [], Nat.zero_le k, Or.inl ⟨rfl, hino⟩, hpath.trans (List.append_nil _).symm⟩
    · exact ⟨hinode, names, hk, Or.inr ⟨hdir, hb⟩, hpath⟩

/-- Nothing below an object has the object's own path. -/
theorem Lists.path_ne (h : Lists d k ino path x) : x.path ≠ path := by
  obtain ⟨-, names, -, hb, hpath⟩ := h
  obtain ⟨a, rest, rfl⟩ := List.exists_cons_of_ne_nil hb.ne_nil
  rw [hpath, spell_cons]
  intro heq
  cases List.append_right_eq_self.mp heq

/-- The pass over an entry finds what is to be found through it, each path once. -/
theorem walkEntry_eq (hlist : Lister d k below) (hp : Proper e)
    (hinode : ∃ i, inode d e.1 = .ok i) (hsound : IsDirectory d e.1 → Sound d e.1) :
    ∃ found, walkEntry d below path e = .ok found ∧ (found.map Found.path).Nodup ∧
      ∀ x, x ∈ found ↔ Through d k path e x := by
  obtain ⟨i, hi⟩ := hinode
  have hdots : ¬(e.2 = dot ∨ e.2 = dotdot) := not_or.mpr hp
  have hself : ∀ x : Found, x = ⟨path ++ sep :: e.2, e.1, i⟩ ↔
      inode d x.ino = .ok x.inode ∧ x.ino = e.1 ∧ x.path = path ++ sep :: e.2 := by
    intro x
    constructor
    · rintro rfl
      exact ⟨hi, rfl, rfl⟩
    · rintro ⟨hinode, hino, hpath⟩
      cases x
      dsimp only at hinode hino hpath
      subst hino hpath
      rw [hi] at hinode
      rw [Except.ok.inj hinode]
  unfold walkEntry
  rw [if_neg hdots, hi]
  by_cases hdir : S_ISDIR i.mode = true
  · have hisdir : IsDirectory d e.1 := ⟨i, hi, hdir⟩
    obtain ⟨under, hunder, hnodup, hmem⟩ := hlist e.1 (path ++ sep :: e.2) (hsound hisdir)
    refine ⟨⟨path ++ sep :: e.2, e.1, i⟩ :: under, ?_, ?_, fun x => ?_⟩
    · dsimp only [bind, Except.bind]
      rw [if_pos hdir, hunder]
      rfl
    · rw [List.map_cons, List.nodup_cons]
      refine ⟨fun hin => ?_, hnodup⟩
      obtain ⟨y, hy, hpath⟩ := List.mem_map.mp hin
      exact ((hmem y).mp hy).path_ne hpath
    · rw [List.mem_cons, hself, hmem, through_iff]
      exact or_congr_right (and_iff_right hisdir).symm
  · have hnot : ¬IsDirectory d e.1 := by
      rintro ⟨j, hj, hjdir⟩
      rw [hi] at hj
      exact hdir (Except.ok.inj hj ▸ hjdir)
    refine ⟨[⟨path ++ sep :: e.2, e.1, i⟩], ?_, List.nodup_singleton _, fun x => ?_⟩
    · dsimp only [bind, Except.bind]
      rw [if_neg hdir]
      rfl
    · rw [List.mem_singleton, hself, through_iff]
      exact (or_iff_left fun h => hnot h.1).symm

/-- The names of a directory tell apart what is found through its entries. -/
theorem Through.path_ne {e' : ℕ × Str} {y : Found} (hx : Through d k path e x)
    (hy : Through d k path e' y) (hsep : sep ∉ e.2) (hsep' : sep ∉ e'.2) (hne : e.2 ≠ e'.2) :
    x.path ≠ y.path := by
  obtain ⟨-, names, -, -, hpath⟩ := hx
  obtain ⟨-, names', -, -, hpath'⟩ := hy
  rw [hpath, hpath']
  intro heq
  refine hne ?_
  rw [← first_name hsep names, ← first_name hsep' names', List.append_cancel_left heq]

/-- What is found in a directory is what is found through its entries. -/
theorem lists_iff (hents : readdir d ino = .ok ents) : Lists d (k + 1) ino path x ↔
    ∃ e ∈ ents, Proper e ∧ Through d k path e x := by
  constructor
  · rintro ⟨hinode, names, hk, hb, hpath⟩
    obtain ⟨name, rest, sub, rfl, ⟨ents', hents', hmem, hp⟩, hcase⟩ := below_iff.mp hb
    rw [hents] at hents'
    obtain rfl := Except.ok.inj hents'
    rw [List.length_cons] at hk
    exact ⟨(sub, name), hmem, hp, hinode, rest, by omega, hcase, hpath⟩
  · rintro ⟨e, he, hp, hinode, names, hk, hcase, hpath⟩
    have hentry : HasEntry d ino e.2 e.1 := ⟨ents, hents, he, hp⟩
    refine ⟨hinode, e.2 :: names, by rw [List.length_cons]; omega, ?_, hpath⟩
    rcases hcase with ⟨rfl, hino⟩ | ⟨hdir, hb⟩
    · rw [hino]
      exact .entry hentry
    · exact .under hentry hdir hb

/-- A walk of a directory by a lister of `k` names is a lister of one more. -/
theorem walkDir_lister (hlist : Lister d k below) : Lister d (k + 1) (walkDir d below) := by
  intro ino path hsound
  obtain ⟨ents, hents, hok⟩ := hsound.top
  let pass := fun e => (walkEntry d below path e).toOption.getD []
  have hpass : ∀ e ∈ ents, walkEntry d below path e = .ok (pass e) ∧
      ((pass e).map Found.path).Nodup ∧ ∀ x, x ∈ pass e ↔ Proper e ∧ Through d k path e x := by
    intro e he
    by_cases hp : Proper e
    · have hentry : HasEntry d ino e.2 e.1 := ⟨ents, hents, he, hp⟩
      obtain ⟨found, hfound, hnodup, hmem⟩ :=
        walkEntry_eq hlist hp (hok.inodes e he hp) (fun hdir => hsound.of_entry hentry hdir)
      have hpass : pass e = found := by
        show (walkEntry d below path e).toOption.getD [] = found
        rw [hfound]
        rfl
      exact ⟨hpass ▸ hfound, hpass ▸ hnodup,
        fun x => hpass ▸ (hmem x).trans (and_iff_right hp).symm⟩
    · have hdots : e.2 = dot ∨ e.2 = dotdot := by
        unfold Proper at hp
        tauto
      have hskip : walkEntry d below path e = .ok [] := if_pos hdots
      have hpass : pass e = [] := by
        show (walkEntry d below path e).toOption.getD [] = []
        rw [hskip]
        rfl
      refine ⟨hpass ▸ hskip, hpass ▸ List.nodup_nil, fun x => ?_⟩
      rw [hpass]
      exact iff_of_false List.not_mem_nil fun h => hp h.1
  refine ⟨ents.flatMap pass, ?_, ?_, fun x => ?_⟩
  · unfold walkDir
    rw [hents]
    dsimp only [bind, Except.bind]
    rw [mapM_ok fun e he => (hpass e he).1]
    rfl
  · rw [List.map_flatMap, List.nodup_flatMap]
    refine ⟨fun e he => (hpass e he).2.1, hok.distinct.imp_of_mem ?_⟩
    intro e e' he he' hne p hp hp'
    obtain ⟨x, hx, rfl⟩ := List.mem_map.mp hp
    obtain ⟨y, hy, hpath⟩ := List.mem_map.mp hp'
    obtain ⟨hproper, hthrough⟩ := ((hpass e he).2.2 x).mp hx
    obtain ⟨hproper', hthrough'⟩ := ((hpass e' he').2.2 y).mp hy
    exact hthrough.path_ne hthrough' (hok.names e he hproper) (hok.names e' he' hproper')
      (hne hproper hproper') hpath.symm
  · rw [List.mem_flatMap, lists_iff hents]
    exact exists_congr fun e => and_congr_right fun he => (hpass e he).2.2 x

theorem walkFrom_lister (d : Bytes) (levels : ℕ) : Lister d (levels + 1) (walkFrom d levels) := by
  induction levels with
  | zero =>
    refine walkDir_lister fun ino path _ => ⟨[], rfl, List.nodup_nil, fun x => ?_⟩
    refine iff_of_false List.not_mem_nil ?_
    rintro ⟨-, names, hk, hb, -⟩
    exact hb.ne_nil (List.length_eq_zero_iff.mp (Nat.le_zero.mp hk))
  | succ levels ih => exact walkDir_lister ih

/-- On a sound image the walk lists each path of at most thirteen names once,
with its inode. -/
theorem walk_eq (h : Sound d 2) : ∃ found, walk d = .ok found ∧ (found.map Found.path).Nodup ∧
    ∀ x, x ∈ found ↔ Lists d 13 2 [] x :=
  walkFrom_lister d 12 2 [] h

end Sys16.S5Walk
