import Sys16.S5Extract

/-!
# The host under an extraction

What the calls of `tools/s5extract.py` do to the files of the host. Objects
with distinct names, no file among the directories of another, come out as
they are in whatever order they are extracted: a directory that is needed
before its turn is made on the way.
-/

namespace Sys16.HostFiles

open Function PyText PyStruct PosixPath S5Reader S5Walk S5Extract

/-- What stands at a place of the host. -/
inductive Node where
  | dir
  /-- A regular file, with its contents and whether it can be executed. -/
  | file (content : Bytes) (executable : Bool)
  deriving DecidableEq, Repr

/-- The files of the host, by place. -/
abbrev Host := List Str → Option Node

/-- `os.mkdir` of a place that may be there as a directory. -/
def mkdir (h : Host) (place : List Str) : Option Host :=
  match h place with
  | none => some (update h place (some .dir))
  | some .dir => some h
  | some (.file _ _) => none

/-- `open(path, 'wb')`: an old file loses its contents, a new one needs its directory. -/
def create (h : Host) (place : List Str) : Option Host :=
  match h place with
  | none => if h place.dropLast = some .dir then some (update h place (some (.file [] false)))
    else none
  | some .dir => none
  | some (.file _ x) => some (update h place (some (.file [] x)))

/-- What a call does to the host, when it does not fail. An empty path names
nothing that could be made. -/
def perform (cwd : List Str) (h : Host) : Action → Option Host
  | .makedirs path => if path = [] then none else (trail cwd path).foldlM mkdir h
  | .create path => create h (resolve cwd path)
  | .write path content =>
    match h (resolve cwd path) with
    | some (.file _ x) => some (update h (resolve cwd path) (some (.file content x)))
    | _ => none
  | .chmod path =>
    match h (resolve cwd path) with
    | some (.file c _) => some (update h (resolve cwd path) (some (.file c true)))
    | some .dir => some h
    | none => none

/-- What a run does to the host. -/
def performAll (cwd : List Str) (h : Host) (actions : List Action) : Option Host :=
  actions.foldlM (perform cwd) h

/-- An object of an image: the names that lead to it, and what it is. -/
abbrev Object := List Str × Node

/-- The calls that extract an object. -/
def script (out : Str) (o : Object) : List Action :=
  let t := target out (spell o.1)
  match o.2 with
  | .dir => [.makedirs t]
  | .file content executable =>
    .makedirs (dirname t) :: .create t :: .write t content ::
      if executable then [.chmod t] else []

variable {h h' : Host} {cwd place base p q : List Str} {out : Str} {names : List Str} {o : Object}
  {done objects : List Object} {node : Node}

theorem performAll_cons (cwd : List Str) (h : Host) (a : Action) (actions : List Action) :
    performAll cwd h (a :: actions) =
      (perform cwd h a).bind fun h => performAll cwd h actions := rfl

theorem performAll_append (cwd : List Str) (h : Host) (xs ys : List Action) :
    performAll cwd h (xs ++ ys) = (performAll cwd h xs).bind fun h => performAll cwd h ys :=
  List.foldlM_append

theorem perform_makedirs {path : Str} (cwd : List Str) (h : Host) (hpath : path ≠ []) :
    perform cwd h (.makedirs path) = (trail cwd path).foldlM mkdir h := if_neg hpath

/-! ## Files and directories -/

/-- A regular file stands at a place. -/
def IsFile (h : Host) (p : List Str) : Prop :=
  ∃ content executable, h p = some (.file content executable)

/-- Where no file stands a directory can be had. -/
theorem not_isFile_iff : ¬IsFile h p ↔ h p = none ∨ h p = some .dir := by
  unfold IsFile
  cases hp : h p with
  | none => simp
  | some n => cases n <;> simp

/-- A directory that is made or was there. -/
theorem mkdir_some (hm : mkdir h p = some h') :
    ¬IsFile h p ∧ h' = update h p (some .dir) := by
  unfold mkdir at hm
  cases hp : h p with
  | none =>
    rw [hp] at hm
    exact ⟨not_isFile_iff.mpr (Or.inl hp), (Option.some.inj hm).symm⟩
  | some n =>
    rw [hp] at hm
    cases n with
    | dir =>
      refine ⟨not_isFile_iff.mpr (Or.inr hp), ?_⟩
      rw [← hp, update_eq_self]
      exact (Option.some.inj hm).symm
    | file => cases hm

/-- A directory is made where no file stands. -/
theorem mkdir_of_free (hp : ¬IsFile h p) : mkdir h p = some (update h p (some .dir)) := by
  unfold mkdir
  rcases not_isFile_iff.mp hp with hp | hp
  · rw [hp]
  · rw [hp]
    exact congrArg some (by rw [← hp, update_eq_self])

/-- A directory more takes away none of the files. -/
theorem isFile_update_dir (hp : ¬IsFile h p) : IsFile (update h p (some .dir)) q ↔ IsFile h q := by
  by_cases hq : q = p
  · subst hq
    refine iff_of_false ?_ hp
    rintro ⟨c, x, hc⟩
    rw [update_self] at hc
    cases hc
  · unfold IsFile
    rw [update_of_ne hq]

/-- A host that differs at one place, where a file stands. -/
structure FileAt (h h' : Host) (p : List Str) : Prop where
  file : IsFile h' p
  others : ∀ q, q ≠ p → h' q = h q

/-- A file that is opened for writing. -/
theorem create_some (hc : create h p = some h') : h p ≠ some .dir ∧ FileAt h h' p := by
  unfold create at hc
  split at hc
  · next hnone =>
    split_ifs at hc
    obtain rfl := Option.some.inj hc
    exact ⟨by rw [hnone]; nofun, ⟨[], false, update_self _ _ _⟩, fun q hq => update_of_ne hq _ _⟩
  · cases hc
  · next hfile =>
    obtain rfl := Option.some.inj hc
    exact ⟨by rw [hfile]; nofun, ⟨_, _, update_self _ _ _⟩, fun q hq => update_of_ne hq _ _⟩

/-- A file can be opened where no directory stands, in a directory. -/
theorem create_of_free (hp : h p ≠ some .dir) (hparent : h p.dropLast = some .dir) :
    ∃ h', create h p = some h' := by
  unfold create
  split
  · exact ⟨_, if_pos hparent⟩
  · next hdir => exact absurd hdir hp
  · exact ⟨_, rfl⟩

/-! ## Directories on the way -/

/-- A host with directories at some places, and otherwise as before. -/
structure Made (l : List (List Str)) (h h' : Host) : Prop where
  made : ∀ p ∈ l, h' p = some .dir
  kept : ∀ p, p ∉ l → h' p = h p

/-- Directories are made wherever no file is in the way. -/
theorem mkdirs_made {l : List (List Str)} (hfree : ∀ p ∈ l, h p = none ∨ h p = some .dir) :
    ∃ h', l.foldlM mkdir h = some h' ∧ Made l h h' := by
  induction l generalizing h with
  | nil => exact ⟨h, rfl, fun p hp => absurd hp List.not_mem_nil, fun _ _ => rfl⟩
  | cons p l ih =>
    obtain ⟨h₁, hone, hself, hother⟩ : ∃ h₁, mkdir h p = some h₁ ∧ h₁ p = some .dir ∧
        ∀ q, q ≠ p → h₁ q = h q :=
      ⟨_, mkdir_of_free (not_isFile_iff.mpr (hfree p List.mem_cons_self)), update_self p _ h,
        fun q hq => update_of_ne hq _ h⟩
    have hfree₁ : ∀ q ∈ l, h₁ q = none ∨ h₁ q = some .dir := by
      intro q hq
      by_cases hqp : q = p
      · exact Or.inr (hqp ▸ hself)
      · rw [hother q hqp]
        exact hfree q (List.mem_cons_of_mem p hq)
    obtain ⟨h', hrest, hmade⟩ := ih hfree₁
    refine ⟨h', ?_, fun q hq => ?_, fun q hq => ?_⟩
    · rw [List.foldlM_cons, hone]
      exact hrest
    · by_cases hql : q ∈ l
      · exact hmade.made q hql
      · obtain rfl := (List.mem_cons.mp hq).resolve_right hql
        rw [hmade.kept q hql, hself]
    · obtain ⟨hqp, hql⟩ := not_or.mp (mt List.mem_cons.mpr hq)
      rw [hmade.kept q hql, hother q hqp]

/-- Directories that have been made, one after the other. -/
theorem mkdirs_some {places : List (List Str)} (hm : places.foldlM mkdir h = some h') :
    (∀ p ∈ places, ¬IsFile h p) ∧ Made places h h' := by
  have hfree : ∀ p ∈ places, ¬IsFile h p := by
    induction places generalizing h with
    | nil => exact fun p hp => absurd hp List.not_mem_nil
    | cons p places ih =>
      obtain ⟨h₁, hone, hrest⟩ := Option.bind_eq_some_iff.mp hm
      obtain ⟨hp, rfl⟩ := mkdir_some hone
      exact List.forall_mem_cons.mpr ⟨hp, fun q hq => mt (isFile_update_dir hp).mpr (ih hrest q hq)⟩
  obtain ⟨h₁, hrun, hmade⟩ := mkdirs_made fun p hp => not_isFile_iff.mp (hfree p hp)
  exact ⟨hfree, Option.some.inj (hrun.symm.trans hm) ▸ hmade⟩

/-- The files are those from before. -/
theorem Made.isFile {places : List (List Str)} (hm : Made places h h')
    (hfree : ∀ p ∈ places, ¬IsFile h p) : IsFile h' p ↔ IsFile h p := by
  by_cases hp : p ∈ places
  · refine iff_of_false ?_ (hfree p hp)
    rintro ⟨c, x, hc⟩
    rw [hm.made p hp] at hc
    cases hc
  · unfold IsFile
    rw [hm.kept p hp]

/-- The directories are those from before and those that were made. -/
theorem Made.dir {places : List (List Str)} (hm : Made places h h') :
    h' p = some .dir ↔ p ∈ places ∨ h p = some .dir := by
  by_cases hp : p ∈ places
  · exact iff_of_true (hm.made p hp) (Or.inl hp)
  · rw [hm.kept p hp, or_iff_right hp]

/-! ## Objects -/

/-- What stands at names below the output directory once some objects have been extracted. -/
def expected (done : List Object) (names : List Str) : Option Node :=
  match done.find? fun o => o.1 = names with
  | some o => some o.2
  | none => if done.any fun o => names.isPrefixOf o.1 then some .dir else none

/-- The objects of a tree: each at its own place, and none below a file. -/
structure Treelike (objects : List Object) : Prop where
  distinct : (objects.map Prod.fst).Nodup
  leaf : ∀ o ∈ objects, ∀ o' ∈ objects, o.1 <+: o'.1 → o.2 ≠ .dir → o = o'
  names : ∀ o ∈ objects, ∀ a ∈ o.1, IsName a

/-- An object that has been extracted is expected as it is. -/
theorem expected_mem (hd : (done.map Prod.fst).Nodup) (ho : o ∈ done) :
    expected done o.1 = some o.2 := by
  unfold expected
  cases hfind : done.find? fun o' => o'.1 = o.1 with
  | none =>
    have hno := List.find?_eq_none.mp hfind o ho
    simp at hno
  | some o' =>
    have hname : o'.1 = o.1 := by simpa using List.find?_some hfind
    rw [List.inj_on_of_nodup_map hd (List.mem_of_find?_eq_some hfind) ho hname]

/-- Where no object has been extracted a directory is expected if one below it has. -/
theorem expected_not_mem (hno : names ∉ done.map Prod.fst) :
    expected done names = if ∃ o ∈ done, names <+: o.1 then some .dir else none := by
  have hfind : done.find? (fun o => o.1 = names) = none := by
    refine List.find?_eq_none.mpr fun o ho heq => hno ?_
    rw [← of_decide_eq_true heq]
    exact List.mem_map_of_mem ho
  unfold expected
  rw [hfind]
  refine if_congr ?_ rfl rfl
  rw [List.any_eq_true]
  simp only [List.isPrefixOf_iff_prefix]

/-- What stands below the output directory is just the objects, when these
have all that is on the way to them. -/
theorem expected_iff (hd : (done.map Prod.fst).Nodup)
    (hclosed : ∀ o ∈ done, ∀ front, front <+: o.1 → front ∈ done.map Prod.fst) :
    expected done names = some node ↔ (names, node) ∈ done := by
  constructor
  · intro h
    by_cases hmem : names ∈ done.map Prod.fst
    · obtain ⟨o, ho, rfl⟩ := List.mem_map.mp hmem
      rw [expected_mem hd ho] at h
      exact Option.some.inj h ▸ ho
    · rw [expected_not_mem hmem, if_neg] at h
      · cases h
      · rintro ⟨o, ho, hprefix⟩
        exact hmem (hclosed o ho names hprefix)
  · exact fun hmem => expected_mem hd hmem

/-- What stands at a place on the way to an object is a directory, if anything. -/
theorem expected_free (ht : Treelike (done ++ [o])) (hn : names <+: o.1)
    (hkind : names = o.1 → o.2 = .dir) :
    expected done names = none ∨ expected done names = some .dir := by
  by_cases hmem : names ∈ done.map Prod.fst
  · obtain ⟨o', ho', rfl⟩ := List.mem_map.mp hmem
    have hd := (List.nodup_append.mp (List.map_append ▸ ht.distinct)).1
    rw [expected_mem hd ho']
    refine Or.inr (congrArg some ?_)
    by_contra hfile
    have hsame := ht.leaf o' (List.mem_append_left _ ho') o (by simp) hn hfile
    exact hfile (hsame ▸ hkind (congrArg Prod.fst hsame))
  · rw [expected_not_mem hmem]
    split
    · exact Or.inr rfl
    · exact Or.inl rfl

/-- Nothing stands where a file is due. -/
theorem expected_file (ht : Treelike (done ++ [o])) (hfile : o.2 ≠ .dir) :
    expected done o.1 = none := by
  have hd := (List.nodup_append.mp (List.map_append ▸ ht.distinct))
  have hno : o.1 ∉ done.map Prod.fst := fun hm => hd.2.2 _ hm _ (by simp) rfl
  rw [expected_not_mem hno, if_neg]
  rintro ⟨o', ho', hprefix⟩
  have hsame := ht.leaf o (by simp) o' (List.mem_append_left _ ho') hprefix hfile
  exact hno (hsame ▸ List.mem_map_of_mem ho')

/-- The object just extracted is expected as it is. -/
theorem expected_self (ht : Treelike (done ++ [o])) : expected (done ++ [o]) o.1 = some o.2 :=
  expected_mem ht.distinct (by simp)

/-- A directory that is needed for an object stands once it is there. -/
theorem expected_above (ht : Treelike (done ++ [o])) (hn : names <+: o.1) (hne : names ≠ o.1) :
    expected (done ++ [o]) names = some .dir := by
  by_cases hmem : names ∈ done.map Prod.fst
  · obtain ⟨o', ho', rfl⟩ := List.mem_map.mp hmem
    rw [expected_mem ht.distinct (List.mem_append_left _ ho')]
    refine congrArg some (by_contra fun hfile => hne ?_)
    exact congrArg Prod.fst (ht.leaf o' (List.mem_append_left _ ho') o (by simp) hn hfile)
  · have hno : names ∉ (done ++ [o]).map Prod.fst := by
      rw [List.map_append, List.mem_append]
      exact fun hm => hm.elim hmem fun h => hne (List.mem_singleton.mp h)
    rw [expected_not_mem hno, if_pos ⟨o, by simp, hn⟩]

/-- An object changes nothing that is not on its way. -/
theorem expected_other (hn : ¬names <+: o.1) :
    expected (done ++ [o]) names = expected done names := by
  have hne : o.1 ≠ names := fun he => hn (he ▸ List.prefix_rfl)
  unfold expected
  rw [List.find?_append, List.any_append]
  have hfind : [o].find? (fun o => o.1 = names) = none := by simp [hne]
  have hany : [o].any (fun o => names.isPrefixOf o.1) = false := by
    rw [List.any_cons, List.any_nil, Bool.or_false]
    exact Bool.eq_false_iff.mpr fun hp => hn (List.isPrefixOf_iff_prefix.mp hp)
  rw [hfind, hany, Option.or_none, Bool.or_false]

/-! ## Extracting an object -/

/-- Nothing on the way to a directory lies below it. -/
def Direct (cwd : List Str) (out : Str) : Prop :=
  ∀ place ∈ trail cwd out, resolve cwd out <+: place → place = resolve cwd out

/-- The objects extracted so far stand below the output directory, and
everything else is as it was once that was made. -/
structure Holds (cwd : List Str) (out : Str) (start : Host) (done : List Object) (h : Host) :
    Prop where
  below : ∀ names, h (resolve cwd out ++ names) = expected done names
  above : ∀ place ∈ trail cwd out, h place = some .dir
  others : ∀ place, place ∉ trail cwd out → ¬resolve cwd out <+: place → h place = start place

/-- The way to where an object goes. -/
theorem mem_trail_object (hnames : ∀ a ∈ names, IsName a) :
    place ∈ trail cwd (target out (spell names)) ↔
      place ∈ trail cwd out ∨ ∃ q, q <+: names ∧ place = resolve cwd out ++ q := by
  rw [mem_trail_target, components_spell hnames]
  refine or_congr_right ⟨fun ⟨q, hq, he⟩ => ⟨q, hq, ?_⟩, fun ⟨q, hq, he⟩ => ⟨q, hq, ?_⟩⟩
  · rw [he, follow_names fun a ha => (hnames a (hq.subset ha)).ne_dotdot]
  · rw [he, follow_names fun a ha => (hnames a (hq.subset ha)).ne_dotdot]

/-- Where an object goes has a path, below an output directory that has one. -/
theorem target_ne_nil (hout : out ≠ []) (path : Str) : target out path ≠ [] :=
  join_ne_nil (lstrip_not_absolute path) hout

/-- The directory of where an object goes has a path too. -/
theorem dirname_target_ne_nil (hout : out ≠ []) (path : Str) : dirname (target out path) ≠ [] := by
  refine dirname_ne_nil ?_
  unfold target join
  rw [if_neg (lstrip_not_absolute path)]
  split
  · next hlast =>
    have hsep := List.mem_of_getLast? (hlast.resolve_left hout)
    exact List.mem_append_left _ hsep
  · exact List.mem_append_right _ List.mem_cons_self

/-- What stands once the directories on the way along some names are made: these,
and below the output directory otherwise what stood there before. -/
theorem way_made (hdirect : Direct cwd out) {start h₁ : Host} {l : List (List Str)}
    (hh : Holds cwd out start done h)
    (hmem : ∀ p, p ∈ l ↔ p ∈ trail cwd out ∨ ∃ q, q <+: names ∧ p = resolve cwd out ++ q)
    (hmade : Made l h h₁) :
    (∀ n, n <+: names → h₁ (resolve cwd out ++ n) = some .dir) ∧
      (∀ n, ¬n <+: names → h₁ (resolve cwd out ++ n) = expected done n) ∧
      (∀ p ∈ trail cwd out, h₁ p = some .dir) ∧
      ∀ p, p ∉ trail cwd out → ¬resolve cwd out <+: p → h₁ p = start p := by
  refine ⟨fun n hn => hmade.made _ ((hmem _).mpr (Or.inr ⟨n, hn, rfl⟩)), fun n hn => ?_,
    fun p hp => hmade.made p ((hmem p).mpr (Or.inl hp)), fun p hp hbase => ?_⟩
  · rw [← hh.below]
    refine hmade.kept _ fun hon => hn ?_
    rcases (hmem _).mp hon with hon | ⟨q, hq, he⟩
    · have hnil := hdirect _ hon (List.prefix_append _ _)
      rw [List.append_right_eq_self.mp hnil]
      exact List.nil_prefix
    · exact List.append_cancel_left he ▸ hq
  · rw [← hh.others p hp hbase]
    refine hmade.kept p fun hon => ?_
    rcases (hmem p).mp hon with hon | ⟨q, _, he⟩
    · exact hp hon
    · exact hbase (he ▸ List.prefix_append _ _)

/-- A directory of a tree is made next to the objects before it. -/
theorem script_dir (ht : Treelike (done ++ [o])) (hdir : o.2 = .dir) (hout : out ≠ [])
    (hdirect : Direct cwd out)
    {start : Host} (hh : Holds cwd out start done h) :
    ∃ h', performAll cwd h (script out o) = some h' ∧ Holds cwd out start (done ++ [o]) h' := by
  have hnames := ht.names o (by simp)
  have hfree : ∀ p ∈ trail cwd (target out (spell o.1)), h p = none ∨ h p = some .dir := by
    intro p hp
    rcases (mem_trail_object hnames).mp hp with hp | ⟨q, hq, rfl⟩
    · exact Or.inr (hh.above p hp)
    · rw [hh.below]
      exact expected_free ht hq fun _ => hdir
  obtain ⟨h', hrun, hmade⟩ := mkdirs_made hfree
  obtain ⟨hon, hoff, habove, hothers⟩ := way_made hdirect hh (fun p => mem_trail_object hnames) hmade
  refine ⟨h', ?_, fun n => ?_, habove, hothers⟩
  · unfold script
    rw [hdir]
    rw [performAll_cons, perform_makedirs cwd h (target_ne_nil hout _), hrun]
    rfl
  · by_cases hn : n <+: o.1
    · rw [hon n hn]
      by_cases hne : n = o.1
      · rw [hne, expected_self ht, hdir]
      · rw [expected_above ht hn hne]
    · rw [expected_other hn, hoff n hn]

/-- A path that goes on from the output directory ends in its last name. -/
theorem target_last (out : Str) {front : List Str} {name : Str}
    (hnames : ∀ a ∈ front ++ [name], IsName a) :
    ∃ pre, target out (spell (front ++ [name])) = pre ++ name ∧
      (pre = [] ∨ ∃ rest, pre = rest ++ [sep]) := by
  have hstrip : ∀ {a : Str} {l : List Str}, IsName a → lstrip (spell (a :: l)) = a ++ spell l := by
    intro a l ha
    rw [spell_cons]
    unfold lstrip
    obtain ⟨c, rest, rfl⟩ := List.exists_cons_of_ne_nil ha.ne_nil
    have hc : c ≠ sep := fun h => ha.sep_notMem (h ▸ List.mem_cons_self)
    rw [List.cons_append, List.dropWhile_cons_of_pos (by simp), List.cons_append,
      List.dropWhile_cons_of_neg (by simpa using hc)]
  obtain ⟨pre, hpre, hend⟩ : ∃ pre, lstrip (spell (front ++ [name])) = pre ++ name ∧
      (pre = [] ∨ ∃ rest, pre = rest ++ [sep]) := by
    cases front with
    | nil =>
      have hsingle := hstrip (l := []) (hnames name (by simp))
      rw [show spell [] = [] from rfl, List.append_nil] at hsingle
      exact ⟨[], hsingle, Or.inl rfl⟩
    | cons a front =>
      refine ⟨a ++ spell front ++ [sep], ?_, Or.inr ⟨_, rfl⟩⟩
      rw [List.cons_append, hstrip (hnames a (by simp)), spell_concat]
      simp
  unfold target join
  rw [if_neg (lstrip_not_absolute _), hpre]
  split
  · next hout =>
    refine ⟨out ++ pre, (List.append_assoc _ _ _).symm, ?_⟩
    rcases hend with rfl | ⟨rest, rfl⟩
    · rcases hout with rfl | hlast
      · exact Or.inl rfl
      · obtain ⟨rest, hrest⟩ := List.getLast?_eq_some_iff.mp hlast
        exact Or.inr ⟨rest, by rw [List.append_nil, hrest]⟩
    · exact Or.inr ⟨out ++ rest, (List.append_assoc _ _ _).symm⟩
  · refine ⟨out ++ sep :: pre, by simp, Or.inr ?_⟩
    rcases hend with rfl | ⟨rest, rfl⟩
    · exact ⟨out, rfl⟩
    · exact ⟨out ++ sep :: rest, by simp⟩

/-- The directory of a file has the parts of the output directory and the
names before the last one. -/
theorem components_directory (out : Str) {front : List Str} {name : Str}
    (hnames : ∀ a ∈ front ++ [name], IsName a) :
    components (dirname (target out (spell (front ++ [name])))) = components out ++ front ∧
      (IsAbsolute (dirname (target out (spell (front ++ [name])))) ↔ IsAbsolute out) := by
  have hname := hnames name (by simp)
  have habs : IsAbsolute (target out (spell (front ++ [name]))) ↔ IsAbsolute out :=
    absolute_join (lstrip_not_absolute _)
  have hparts : components (target out (spell (front ++ [name]))) =
      components out ++ front ++ [name] := by
    unfold target
    rw [components_join (lstrip_not_absolute _), components_lstrip, components_spell hnames,
      List.append_assoc]
  obtain ⟨pre, hpre, hend⟩ := target_last out hnames
  rw [hpre] at habs hparts ⊢
  rcases hend with rfl | ⟨rest, rfl⟩
  · rw [List.nil_append] at habs hparts ⊢
    have hnone : rsplit name = none := rsplit_eq_none.mpr hname.sep_notMem
    have hdir : dirname name = [] := by
      unfold dirname
      rw [hnone]
    rw [components_of_name hname.sep_notMem hname.ne_nil hname.ne_dot] at hparts
    have hlen := congrArg List.length hparts
    rw [List.length_append, List.length_singleton] at hlen
    have hnil : components out ++ front = [] := List.length_eq_zero_iff.mp (by omega)
    rw [hdir, components_nil, hnil]
    refine ⟨rfl, iff_of_false (fun h => nomatch h) fun h => hname.sep_notMem ?_⟩
    exact List.mem_of_head? (habs.mpr h)
  · have hsplit : rsplit (rest ++ [sep] ++ name) = some (rest, name) :=
      rsplit_eq_some.mpr ⟨by simp, hname.sep_notMem⟩
    have hdir := components_dirname hsplit
    rw [components_of_name hname.sep_notMem hname.ne_nil hname.ne_dot, hparts] at hdir
    exact ⟨(List.append_cancel_right hdir).symm, (absolute_dirname hsplit).trans habs⟩

/-- The way to the directory of a file. -/
theorem mem_trail_directory {front : List Str} {name : Str}
    (hnames : ∀ a ∈ front ++ [name], IsName a) :
    place ∈ trail cwd (dirname (target out (spell (front ++ [name])))) ↔
      place ∈ trail cwd out ∨ ∃ q, q <+: front ∧ place = resolve cwd out ++ q := by
  obtain ⟨hparts, habs⟩ := components_directory out hnames
  have hfollow : ∀ q, q <+: front →
      follow (if IsAbsolute out then [] else cwd) (components out ++ q) =
        resolve cwd out ++ q := by
    intro q hq
    rw [follow_append]
    exact follow_names fun a ha => (hnames a (List.mem_append_left _ (hq.subset ha))).ne_dotdot
  rw [mem_trail, mem_trail, hparts, if_congr habs rfl rfl]
  constructor
  · rintro ⟨q, hq, rfl⟩
    rcases prefix_append_cases hq with hq | ⟨r, hr, rfl⟩
    · exact Or.inl ⟨q, hq, rfl⟩
    · exact Or.inr ⟨r, hr, hfollow r hr⟩
  · rintro (⟨q, hq, rfl⟩ | ⟨q, hq, rfl⟩)
    · exact ⟨q, hq.trans (List.prefix_append _ _), rfl⟩
    · exact ⟨components out ++ q, (List.prefix_append_right_inj _).mpr hq, hfollow q hq⟩

/-- The calls that make a file with its contents, where nothing stands yet. -/
theorem file_made {t : Str} {place : List Str} {front : List Str} {name : Str}
    (content : Bytes) (executable : Bool) (hplace : resolve cwd t = place)
    (hfront : place = front ++ [name]) (hempty : h place = none)
    (hparent : h front = some .dir) :
    performAll cwd h (.create t :: .write t content :: if executable then [.chmod t] else []) =
      some (update h place (some (.file content executable))) := by
  have hcreate : perform cwd h (.create t) = some (update h place (some (.file [] false))) := by
    show create h (resolve cwd t) = _
    unfold create
    rw [hplace, hempty, hfront, List.dropLast_concat, hparent]
    rfl
  have hwrite : perform cwd (update h place (some (.file [] false))) (.write t content) =
      some (update h place (some (.file content false))) := by
    unfold perform
    dsimp only
    rw [hplace, update_self]
    dsimp only
    rw [update_idem]
  rw [performAll_cons, hcreate, Option.bind_some, performAll_cons, hwrite, Option.bind_some]
  cases executable with
  | false => rfl
  | true =>
    have hchmod : perform cwd (update h place (some (.file content false))) (.chmod t) =
        some (update h place (some (.file content true))) := by
      unfold perform
      dsimp only
      rw [hplace, update_self]
      dsimp only
      rw [update_idem]
    rw [if_pos rfl, performAll_cons, hchmod]
    rfl

/-- A file of a tree is written next to the objects before it. -/
theorem script_file (ht : Treelike (done ++ [o])) {content : Bytes} {executable : Bool}
    (hfile : o.2 = .file content executable) (hne : o.1 ≠ []) (hout : out ≠ [])
    (hdirect : Direct cwd out)
    {start : Host} (hh : Holds cwd out start done h) :
    ∃ h', performAll cwd h (script out o) = some h' ∧ Holds cwd out start (done ++ [o]) h' := by
  obtain ⟨names, node⟩ := o
  dsimp only at hfile hne
  subst hfile
  have hnames := ht.names _ (List.mem_append_right _ (List.mem_singleton_self _))
  dsimp only at hnames
  have hkind : Node.file content executable ≠ .dir := nofun
  obtain ⟨front, name, rfl⟩ : ∃ front name, names = front ++ [name] :=
    ⟨_, _, (List.dropLast_concat_getLast hne).symm⟩
  have hplace : resolve cwd (target out (spell (front ++ [name]))) =
      resolve cwd out ++ (front ++ [name]) := resolve_target hnames
  have hfree : ∀ p ∈ trail cwd (dirname (target out (spell (front ++ [name])))),
      h p = none ∨ h p = some .dir := by
    intro p hp
    rcases (mem_trail_directory hnames).mp hp with hp | ⟨q, hq, rfl⟩
    · exact Or.inr (hh.above p hp)
    · rw [hh.below]
      refine expected_free ht (hq.trans (List.prefix_append _ _)) fun he => ?_
      have hlen := congrArg List.length he
      rw [List.length_append, List.length_singleton] at hlen
      have hle := hq.length_le
      omega
  obtain ⟨h₁, hrun, hmade⟩ := mkdirs_made hfree
  obtain ⟨hon, hoff, habove, hothers⟩ :=
    way_made hdirect hh (fun p => mem_trail_directory hnames) hmade
  -- the directories on the way are not where the file goes
  have hlong : ¬front ++ [name] <+: front := fun hp => by
    have hle := hp.length_le
    rw [List.length_append, List.length_singleton] at hle
    omega
  have hempty : h₁ (resolve cwd out ++ (front ++ [name])) = none :=
    (hoff _ hlong).trans (expected_file ht hkind)
  have hrest := file_made content executable hplace (List.append_assoc _ _ _).symm hempty
    (hon front List.prefix_rfl)
  refine ⟨update h₁ (resolve cwd out ++ (front ++ [name])) (some (.file content executable)), ?_,
    fun n => ?_, fun p hp => ?_, fun p hp hbase => ?_⟩
  · unfold script
    rw [performAll_cons, perform_makedirs cwd h (dirname_target_ne_nil hout _), hrun]
    exact hrest
  · by_cases heq : n = front ++ [name]
    · rw [heq, update_self]
      exact (expected_self ht).symm
    · rw [update_of_ne fun he => heq (List.append_cancel_left he)]
      by_cases hn : n <+: front
      · rw [hon n hn]
        exact (expected_above ht (hn.trans (List.prefix_append _ _)) heq).symm
      · rw [hoff n hn, expected_other]
        exact fun hp => (List.prefix_concat_iff.mp hp).elim heq hn
  · have hne' : p ≠ resolve cwd out ++ (front ++ [name]) := fun he => by
      have hnil := hdirect p hp (by rw [he]; exact List.prefix_append _ _)
      rw [he] at hnil
      exact absurd (List.append_right_eq_self.mp hnil) (by simp)
    rw [update_of_ne hne', habove p hp]
  · have hne' : p ≠ resolve cwd out ++ (front ++ [name]) := fun he =>
      hbase (by rw [he]; exact List.prefix_append _ _)
    rw [update_of_ne hne', hothers p hp hbase]

/-- An object of a tree is extracted next to those before it. -/
theorem script_holds (ht : Treelike (done ++ [o])) (hne : o.1 ≠ []) (hout : out ≠ [])
    (hdirect : Direct cwd out) {start : Host} (hh : Holds cwd out start done h) :
    ∃ h', performAll cwd h (script out o) = some h' ∧ Holds cwd out start (done ++ [o]) h' := by
  cases hkind : o.2 with
  | dir => exact script_dir ht hkind hout hdirect hh
  | file content executable => exact script_file ht hkind hne hout hdirect hh

/-- The objects of a tree are extracted, in any order. -/
theorem scripts_hold (ht : Treelike (done ++ objects)) (hne : ∀ o ∈ objects, o.1 ≠ [])
    (hout : out ≠ []) (hdirect : Direct cwd out) {start : Host}
    (hh : Holds cwd out start done h) :
    ∃ h', performAll cwd h (objects.flatMap (script out)) = some h' ∧
      Holds cwd out start (done ++ objects) h' := by
  induction objects generalizing done h with
  | nil => exact ⟨h, rfl, by rwa [List.append_nil]⟩
  | cons o objects ih =>
    rw [List.append_cons] at ht
    have htake : Treelike (done ++ [o]) := by
      refine ⟨?_, fun x hx y hy => ?_, fun x hx => ?_⟩
      · have hd := ht.distinct
        rw [List.map_append] at hd
        exact (List.nodup_append.mp hd).1
      · exact ht.leaf x (List.mem_append_left _ hx) y (List.mem_append_left _ hy)
      · exact ht.names x (List.mem_append_left _ hx)
    obtain ⟨h₁, hone, hh₁⟩ := script_holds htake (hne o List.mem_cons_self) hout hdirect hh
    obtain ⟨h', hrest, hh'⟩ := ih ht (fun x hx => hne x (List.mem_cons_of_mem o hx)) hh₁
    refine ⟨h', ?_, by rwa [List.append_cons]⟩
    rw [List.flatMap_cons, performAll_append, hone]
    exact hrest

/-- The output directory has a path, the places it needs are free, and nothing is in it. -/
structure Ready (cwd : List Str) (out : Str) (start : Host) : Prop where
  named : out ≠ []
  way : ∀ place ∈ trail cwd out, start place = none ∨ start place = some .dir
  fresh : ∀ names, names ≠ [] → start (resolve cwd out ++ names) = none
  direct : Direct cwd out

/-- An output directory that is made holds nothing. -/
theorem out_holds {start : Host} (hr : Ready cwd out start) :
    ∃ h, performAll cwd start [.makedirs out] = some h ∧
      Holds cwd out start [([], .dir)] h := by
  obtain ⟨h, hrun, hmade⟩ := mkdirs_made hr.way
  have hself : resolve cwd out ∈ trail cwd out := mem_trail_dirname.mpr (Or.inr rfl)
  refine ⟨h, ?_, fun n => ?_, hmade.made, fun p hp _ => hmade.kept p hp⟩
  · rw [performAll_cons, perform_makedirs cwd start hr.named, hrun]
    rfl
  · cases n with
    | nil =>
      rw [List.append_nil, hmade.made _ hself]
      rfl
    | cons a n =>
      have hnot : resolve cwd out ++ a :: n ∉ trail cwd out := fun hmem =>
        absurd (List.append_right_eq_self.mp (hr.direct _ hmem (List.prefix_append _ _)))
          (List.cons_ne_nil a n)
      rw [hmade.kept _ hnot, hr.fresh _ (List.cons_ne_nil a n)]
      rfl

/-- The host after the objects of a tree have been extracted: they stand in the
output directory, and nothing else does. -/
theorem extracted_host (ht : Treelike (([], .dir) :: objects)) {start : Host}
    (hr : Ready cwd out start) :
    ∃ h, performAll cwd start (.makedirs out :: objects.flatMap (script out)) = some h ∧
      Holds cwd out start (([], .dir) :: objects) h := by
  have hne : ∀ o ∈ objects, o.1 ≠ [] := by
    intro o ho hnil
    have hd := List.nodup_cons.mp ht.distinct
    exact hd.1 (List.mem_map.mpr ⟨o, ho, hnil⟩)
  obtain ⟨h₁, hone, hh₁⟩ := out_holds hr
  have htree : Treelike ([([], .dir)] ++ objects) := ht
  obtain ⟨h, hrest, hh⟩ := scripts_hold htree hne hr.named hr.direct hh₁
  refine ⟨h, ?_, hh⟩
  rw [← List.singleton_append, performAll_append, hone]
  exact hrest

end Sys16.HostFiles
