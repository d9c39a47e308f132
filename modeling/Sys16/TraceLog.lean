import Sys16.GreedyPatterns
import Sys16.Nm32

/-!
# The trace of `tools/trace.py`

The lines of an emulator's log are searched for two messages, one for each
translation of an address and one for an abort. What the tool prints is the
last abort, or the first one, and before it the addresses at which execution
went anywhere but on, each with the kernel symbol it belongs to.
-/

namespace Sys16.TraceLog

open PyText PyStruct PyBytes GreedyPatterns Nm32

/-! ## The messages -/

/-- `\d`, a decimal digit of any script. -/
def isDecimal (c : ℕ) : Bool := decimalZeros.any fun z => z ≤ c && c < z + 10

/-- `[0-9a-f]`. -/
def isHex (c : ℕ) : Bool := (0x30 ≤ c && c ≤ 0x39) || (0x61 ≤ c && c ≤ 0x66)

/-- `.`, anything but a line feed. -/
def isDot (c : ℕ) : Bool := c != 0x0a

/-- What is before the first group of `RE_XLATE`. -/
def XLATE : Str := str "translate address_space 0 access_level "

def RE_XLATE : List (Piece ℕ) :=
  literal XLATE ++ [.many 1 isDecimal] ++ literal (str " ") ++ [.many 0 isDot] ++
    literal (str " address 0x") ++ [.many 1 isHex]

def RE_ABORT : List (Piece ℕ) :=
  literal (str "translate level ") ++ [.one isDecimal] ++ literal (str " abort eia 0x") ++
    [.many 1 isHex]

/-- The access level, group 1 of `RE_XLATE`. -/
def levelGroup (ws : List Str) : Str := ws.getD XLATE.length []

/-- The address, the last group of either pattern. -/
def addressGroup (ws : List Str) : Str := ws.getLastD []

/-- `int(s, 16)` of lower-case hexadecimal digits. -/
def hexValue (s : Str) : ℕ :=
  s.foldl (fun n c => n * 16 + if c ≤ 0x39 then c - 0x30 else c - 0x57) 0

/-! ## `main` -/

/-- `steps`. -/
def stepsOf (argv : List Str) : Except Failure ℤ :=
  match argv[3]? with
  | some a => if a.head? = some '-'.toNat then .ok 60 else int 10 a
  | none => .ok 60

/-- The loop that looks for an abort, from line `i` on: `idx`. -/
def findAbort (first : Bool) : ℕ → Option ℕ → List Str → Option ℕ
  | _, idx, [] => idx
  | i, idx, line :: lines =>
    if (search RE_ABORT line).isSome then
      if first then some i else findAbort first (i + 1) (some i) lines
    else findAbort first (i + 1) idx lines

/-- What one pass of the loop over the translations appends. -/
def fetchOf (line : Str) : Except Failure (Option ℕ) :=
  match search RE_XLATE line with
  | none => .ok none
  | some ws => do
    let level ← int 10 (levelGroup ws)
    return if level = 0 then some (hexValue (addressGroup ws)) else none

/-- An address that execution reaches by going on from another. -/
def Near (a b : ℕ) : Prop := a ≤ b ∧ b ≤ a + 8

instance : DecidableRel Near := fun _ _ => inferInstanceAs (Decidable (_ ∧ _))

/-- One pass of the loop over the fetches. -/
def collapse (ins : List ℕ) (a : ℕ) : List ℕ :=
  match ins.getLast? with
  | some b => if Near b a then ins else ins ++ [a]
  | none => ins ++ [a]

/-- `ins[-steps:]`. -/
def lastSteps (ins : List ℕ) (steps : ℤ) : List ℕ :=
  if 0 < steps then ins.drop (ins.length - steps.toNat) else ins.drop steps.natAbs

/-- What is printed. -/
def report (syms : List Symbol) (steps : ℤ) (idx abort_at : ℕ) (ins : List ℕ) : List Str :=
  [str "abort on 0x" ++ number 16 [] 6 abort_at ++ str " (" ++ name_of syms abort_at ++
      str ") at log line " ++ number 10 [] 0 (idx + 1),
    str "\nlast " ++ number 10 [] 0 steps ++ str " instruction addresses before it:"] ++
  (lastSteps ins steps).map fun a =>
    str "  " ++ number 16 [] 6 a ++ str "  " ++ name_of syms a

/-- `main` on the arguments, the bytes of the kernel and the lines of the log. -/
def main (argv : List Str) (kernel : Bytes) (lines : List Str) : Except Failure (List Str) :=
  if argv.length < 3 then .error .indexError
  else do
    let steps ← stepsOf argv
    let syms ← symbols kernel
    match findAbort (str "--first" ∈ argv) 0 none lines with
    | none => .error (.exit (str "no abort in the log"))
    | some idx =>
      let abort_at := hexValue (addressGroup ((search RE_ABORT (lines.getD idx [])).getD []))
      let found ← (lines.take idx).mapM fetchOf
      return report syms steps idx abort_at (found.reduceOption.foldl collapse [])

variable {lines before after : List Str} {line : Str} {idx i : ℕ} {first : Bool} {a b : ℕ}
  {fetches ins acc : List ℕ} {ws : List Str} {steps : ℤ} {syms : List Symbol}

/-! ## The abort -/

/-- The line of an abort that is the first or the last one of the log. -/
structure Chosen (first : Bool) (lines : List Str) (idx : ℕ) (line : Str) : Prop where
  there : lines[idx]? = some line
  occurs : Occurs RE_ABORT line
  others : ∀ k other, lines[k]? = some other → Occurs RE_ABORT other →
    if first then idx ≤ k else k ≤ idx

/-- The first line is the one chosen exactly when it holds the pattern and, unless the
first is wanted, no later one does. -/
theorem chosen_head {other : Str} : Chosen first (line :: lines) 0 other ↔
    other = line ∧ Occurs RE_ABORT line ∧
      (first = false → ∀ l ∈ lines, ¬Occurs RE_ABORT l) := by
  constructor
  · rintro ⟨hthere, hoccurs, hothers⟩
    obtain rfl : line = other := Option.some.inj hthere
    refine ⟨rfl, hoccurs, fun hfirst l hl hocc => ?_⟩
    obtain ⟨k, hk⟩ := List.getElem?_of_mem hl
    have hle := hothers (k + 1) l hk hocc
    rw [hfirst, if_neg Bool.false_ne_true] at hle
    omega
  · rintro ⟨rfl, hoccurs, hnone⟩
    refine ⟨rfl, hoccurs, fun k l hk hocc => ?_⟩
    cases hfirst : first with
    | true => exact Nat.zero_le k
    | false =>
      cases k with
      | zero => exact Nat.le_refl 0
      | succ k => exact absurd hocc (hnone hfirst l (List.mem_of_getElem? hk))

/-- A later line is the one chosen exactly when it is chosen of what follows and the first
is not. -/
theorem chosen_tail {other : Str} {k : ℕ} : Chosen first (line :: lines) (k + 1) other ↔
    Chosen first lines k other ∧ (first = true → ¬Occurs RE_ABORT line) := by
  constructor
  · rintro ⟨hthere, hoccurs, hothers⟩
    refine ⟨⟨hthere, hoccurs, fun j l hj hocc => ?_⟩, fun hfirst hocc => ?_⟩
    · have hle := hothers (j + 1) l hj hocc
      split_ifs at hle ⊢ with h
      · exact Nat.le_of_succ_le_succ hle
      · exact Nat.le_of_succ_le_succ hle
    · have hle := hothers 0 line rfl hocc
      rw [if_pos hfirst] at hle
      omega
  · rintro ⟨⟨hthere, hoccurs, hothers⟩, hnone⟩
    refine ⟨hthere, hoccurs, fun j l hj hocc => ?_⟩
    cases j with
    | zero =>
      obtain rfl : line = l := Option.some.inj hj
      cases hfirst : first with
      | true => exact absurd hocc (hnone hfirst)
      | false => exact Nat.zero_le _
    | succ j =>
      have hle := hothers j l hj hocc
      split_ifs at hle ⊢ with h
      · exact Nat.succ_le_succ hle
      · exact Nat.succ_le_succ hle

/-- The chosen line is the first or one of the rest. -/
theorem exists_chosen_cons {n : ℕ} : (∃ k other, n = i + k ∧ Chosen first (line :: lines) k other) ↔
    (n = i ∧ Occurs RE_ABORT line ∧ (first = false → ∀ l ∈ lines, ¬Occurs RE_ABORT l)) ∨
      (∃ k other, n = i + 1 + k ∧ Chosen first lines k other) ∧
        (first = true → ¬Occurs RE_ABORT line) := by
  constructor
  · rintro ⟨k, other, rfl, hk⟩
    cases k with
    | zero => exact Or.inl ⟨rfl, (chosen_head.mp hk).2⟩
    | succ k =>
      obtain ⟨hchosen, hnone⟩ := chosen_tail.mp hk
      exact Or.inr ⟨⟨k, other, by omega, hchosen⟩, hnone⟩
  · rintro (⟨rfl, hline⟩ | ⟨⟨k, other, rfl, hk⟩, hnone⟩)
    · exact ⟨0, line, rfl, chosen_head.mpr ⟨rfl, hline⟩⟩
    · exact ⟨k + 1, other, by omega, chosen_tail.mpr ⟨hk, hnone⟩⟩

/-- The loop ends with the chosen line, or with what it began with when no line
holds an abort. -/
theorem findAbort_eq_some {start : Option ℕ} {n : ℕ} : findAbort first i start lines = some n ↔
    (∃ k line, n = i + k ∧ Chosen first lines k line) ∨
      start = some n ∧ ∀ line ∈ lines, ¬Occurs RE_ABORT line := by
  induction lines generalizing i start with
  | nil =>
    rw [findAbort]
    exact ⟨fun h => Or.inr ⟨h, List.forall_mem_nil _⟩, fun h => h.elim
      (fun ⟨k, line, _, hk⟩ => absurd hk.there (by simp)) And.left⟩
  | cons line lines ih =>
    rw [findAbort, exists_chosen_cons, List.forall_mem_cons]
    by_cases hocc : Occurs RE_ABORT line
    · rw [if_pos (search_isSome.mpr hocc)]
      cases first with
      | true =>
        rw [if_pos rfl]
        constructor
        · intro h
          exact Or.inl (Or.inl ⟨(Option.some.inj h).symm, hocc, nofun⟩)
        · rintro ((⟨rfl, _⟩ | ⟨_, hno⟩) | ⟨_, hno, _⟩)
          · rfl
          · exact absurd hocc (hno rfl)
          · exact absurd hocc hno
      | false =>
        rw [if_neg Bool.false_ne_true, ih]
        constructor
        · rintro (hlater | ⟨hn, hnone⟩)
          · exact Or.inl (Or.inr ⟨hlater, nofun⟩)
          · exact Or.inl (Or.inl ⟨(Option.some.inj hn).symm, hocc, fun _ => hnone⟩)
        · rintro ((⟨rfl, _, hnone⟩ | ⟨hlater, _⟩) | ⟨_, hno, _⟩)
          · exact Or.inr ⟨rfl, hnone rfl⟩
          · exact Or.inl hlater
          · exact absurd hocc hno
    · rw [if_neg fun h => hocc (search_isSome.mp h), ih]
      constructor
      · rintro (hlater | ⟨hn, hnone⟩)
        · exact Or.inl (Or.inr ⟨hlater, fun _ => hocc⟩)
        · exact Or.inr ⟨hn, hocc, hnone⟩
      · rintro ((⟨_, hno, _⟩ | ⟨hlater, _⟩) | ⟨hn, _, hnone⟩)
        · exact absurd hno hocc
        · exact Or.inl hlater
        · exact Or.inr ⟨hn, hnone⟩

/-- The line that the tool reports. -/
theorem findAbort_chosen : findAbort first 0 none lines = some idx ↔
    ∃ line, Chosen first lines idx line := by
  rw [findAbort_eq_some]
  constructor
  · rintro (⟨k, line, hk, hchosen⟩ | ⟨hn, _⟩)
    · rw [hk, Nat.zero_add]
      exact ⟨line, hchosen⟩
    · cases hn
  · rintro ⟨line, hchosen⟩
    exact Or.inl ⟨idx, line, (Nat.zero_add idx).symm, hchosen⟩

/-! ## The runs -/

/-- The heads of the runs that some addresses fall into: a run goes on while its
addresses are near its head. -/
def Heads (fetches ins : List ℕ) : Prop :=
  ∃ runs : List (ℕ × List ℕ), fetches = runs.flatMap (fun r => r.1 :: r.2) ∧
    ins = runs.map Prod.fst ∧ (∀ r ∈ runs, ∀ a ∈ r.2, Near r.1 a) ∧
    ins.IsChain fun b b' => ¬Near b b'

/-- A fetch near the one before is dropped. -/
theorem collapse_near (h : Near b a) : collapse (acc ++ [b]) a = acc ++ [b] := by
  unfold collapse
  rw [List.getLast?_concat]
  exact if_pos h

/-- A fetch away from the one before is kept. -/
theorem collapse_far (h : ∀ b ∈ ins.getLast?, ¬Near b a) : collapse ins a = ins ++ [a] := by
  unfold collapse
  cases hlast : ins.getLast? with
  | none => rfl
  | some b => exact if_neg (h b hlast)

/-- A run of fetches near one is dropped whole. -/
theorem foldl_collapse_near (h : ∀ a ∈ fetches, Near b a) :
    fetches.foldl collapse (acc ++ [b]) = acc ++ [b] := by
  induction fetches with
  | nil => rfl
  | cons a fetches ih =>
    rw [List.foldl_cons, collapse_near (h a List.mem_cons_self)]
    exact ih fun x hx => h x (List.mem_cons_of_mem a hx)

/-- The loop over the fetches keeps the heads of the runs. -/
theorem foldl_collapse_runs {runs : List (ℕ × List ℕ)} (hnear : ∀ r ∈ runs, ∀ a ∈ r.2, Near r.1 a)
    (hchain : (runs.map Prod.fst).IsChain fun b b' => ¬Near b b')
    (hfirst : ∀ r ∈ runs.head?, ∀ b ∈ acc.getLast?, ¬Near b r.1) :
    (runs.flatMap fun r => r.1 :: r.2).foldl collapse acc = acc ++ runs.map Prod.fst := by
  induction runs generalizing acc with
  | nil => exact (List.append_nil acc).symm
  | cons r runs ih =>
    rw [List.flatMap_cons, List.cons_append, List.foldl_cons, List.foldl_append,
      collapse_far (hfirst r rfl), foldl_collapse_near (hnear r List.mem_cons_self),
      ih (fun x hx => hnear x (List.mem_cons_of_mem r hx)) hchain.tail ?_, List.append_assoc]
    · rfl
    · intro r' hr' b hb
      rw [List.getLast?_concat] at hb
      obtain rfl := Option.some.inj hb
      cases runs with
      | nil => cases hr'
      | cons s runs =>
        obtain rfl := Option.some.inj hr'
        exact (List.isChain_cons_cons.mp hchain).1

/-- Addresses fall into runs one by one. -/
theorem exists_heads (fetches : List ℕ) : ∃ ins, Heads fetches ins := by
  induction fetches using List.reverseRecOn with
  | nil => exact ⟨[], [], rfl, rfl, fun _ hr => absurd hr List.not_mem_nil, List.isChain_nil⟩
  | append_singleton fetches a ih =>
    obtain ⟨ins, runs, rfl, rfl, hnear, hchain⟩ := ih
    rcases runs.eq_nil_or_concat' with rfl | ⟨before, r, rfl⟩
    · exact ⟨[a], [(a, [])], rfl, rfl, by simp, List.isChain_singleton a⟩
    · rw [List.map_append] at hchain
      by_cases ha : Near r.1 a
      · refine ⟨_, before ++ [(r.1, r.2 ++ [a])], by simp, rfl, fun x hx b hb => ?_, ?_⟩
        · rcases List.mem_append.mp hx with hx | hx
          · exact hnear x (List.mem_append_left _ hx) b hb
          · obtain rfl := List.mem_singleton.mp hx
            rcases List.mem_append.mp hb with hb | hb
            · exact hnear r (by simp) b hb
            · exact List.mem_singleton.mp hb ▸ ha
        · rw [List.map_append]
          exact hchain
      · refine ⟨_, before ++ [r] ++ [(a, [])], by simp, rfl, fun x hx b hb => ?_, ?_⟩
        · rcases List.mem_append.mp hx with hx | hx
          · exact hnear x hx b hb
          · rw [List.mem_singleton.mp hx] at hb
            cases hb
        · rw [List.map_append, List.map_append]
          refine hchain.append (List.isChain_singleton a) fun b hb c hc => ?_
          rw [List.map_singleton, List.getLast?_concat] at hb
          obtain rfl := Option.some.inj hb
          obtain rfl := Option.some.inj hc
          exact ha

/-- Collapsing gives exactly the heads of the runs. -/
theorem heads_iff : Heads fetches ins ↔ fetches.foldl collapse [] = ins := by
  have hfold : ∀ ins, Heads fetches ins → fetches.foldl collapse [] = ins := by
    rintro ins ⟨runs, rfl, rfl, hnear, hchain⟩
    exact foldl_collapse_runs hnear hchain fun _ _ b hb => by cases hb
  refine ⟨hfold ins, fun h => ?_⟩
  obtain ⟨ins', h'⟩ := exists_heads fetches
  rw [← h, hfold ins' h']
  exact h'

/-! ## The fetches -/

/-- What a line says of a fetch: nothing where it holds no translation message
or one of another level, and otherwise the address in the message. The message
is the leftmost one, with as much as there can be before its address. -/
def Fetches (line : Str) (found : Option ℕ) : Prop :=
  (¬Occurs RE_XLATE line ∧ found = none) ∨
    ∃ before ws level, Leftmost RE_XLATE line before ws ∧ int 10 (levelGroup ws) = .ok level ∧
      found = if level = 0 then some (hexValue (addressGroup ws)) else none

/-- A line yields a fetch exactly as the pattern says. -/
theorem fetchOf_eq_ok {found : Option ℕ} : fetchOf line = .ok found ↔ Fetches line found := by
  unfold fetchOf Fetches
  cases hs : search RE_XLATE line with
  | none =>
    have hno : ¬Occurs RE_XLATE line := fun h => by
      rw [← search_isSome, hs] at h
      cases h
    constructor
    · intro h
      exact Or.inl ⟨hno, (Except.ok.inj h).symm⟩
    · rintro (⟨_, rfl⟩ | ⟨before, ws, _, hleft, _⟩)
      · rfl
      · rw [search_eq_some.mpr ⟨before, hleft⟩] at hs
        cases hs
  | some ws =>
    obtain ⟨before, hleft⟩ := search_eq_some.mp hs
    dsimp only
    constructor
    · intro h
      obtain ⟨level, hlevel, h⟩ := bind_eq_ok.mp h
      exact Or.inr ⟨before, ws, level, hleft, hlevel, (Except.ok.inj h).symm⟩
    · rintro (⟨hno, _⟩ | ⟨before', ws', level, hleft', hlevel, rfl⟩)
      · exact absurd (search_isSome.mp (by rw [hs]; rfl)) hno
      · obtain ⟨_, rfl⟩ := hleft.unique hleft'
        exact bind_eq_ok.mpr ⟨level, hlevel, rfl⟩

/-! ## The tool -/

/-- The report on a log: the chosen abort, with the address in its message, and
the heads of the runs that the fetches before it fall into. -/
structure Traced (argv : List Str) (kernel : Bytes) (lines out : List Str) (steps : ℤ)
    (syms : List Symbol) (idx abort_at : ℕ) (ins : List ℕ) : Prop where
  args : 3 ≤ argv.length
  steps_eq : stepsOf argv = .ok steps
  symbols_eq : symbols kernel = .ok syms
  abort : ∃ line before ws, Chosen (decide (str "--first" ∈ argv)) lines idx line ∧
    Leftmost RE_ABORT line before ws ∧ abort_at = hexValue (addressGroup ws)
  fetched : ∃ found, List.Forall₂ Fetches (lines.take idx) found ∧ Heads found.reduceOption ins
  out_eq : out = report syms steps idx abort_at ins

/-- The tool prints the report on a log, and nothing else. -/
theorem trace_report {argv : List Str} {kernel : Bytes} {out : List Str} :
    main argv kernel lines = .ok out ↔
      ∃ steps syms idx abort_at ins, Traced argv kernel lines out steps syms idx abort_at ins := by
  unfold main
  constructor
  · intro h
    split_ifs at h with hargs
    obtain ⟨steps, hsteps, h⟩ := bind_eq_ok.mp h
    obtain ⟨syms, hsyms, h⟩ := bind_eq_ok.mp h
    cases hidx : findAbort (decide (str "--first" ∈ argv)) 0 none lines with
    | none =>
      rw [hidx] at h
      cases h
    | some idx =>
      rw [hidx] at h
      obtain ⟨found, hfound, h⟩ := bind_eq_ok.mp h
      obtain ⟨line, hchosen⟩ := findAbort_chosen.mp hidx
      obtain ⟨ws, hws⟩ := Option.isSome_iff_exists.mp (search_isSome.mpr hchosen.occurs)
      obtain ⟨before, hleft⟩ := search_eq_some.mp hws
      have hline : lines.getD idx [] = line := by
        rw [List.getD_eq_getElem?_getD, hchosen.there]
        rfl
      refine ⟨steps, syms, idx, _, _, by omega, hsteps, hsyms, ⟨line, before, ws, hchosen, hleft, rfl⟩,
        ⟨found, (mapM_eq_ok.mp hfound).imp fun _ _ => fetchOf_eq_ok.mp, heads_iff.mpr rfl⟩, ?_⟩
      rw [hline, hws] at h
      exact (Except.ok.inj h).symm
  · rintro ⟨steps, syms, idx, abort_at, ins, hargs, hsteps, hsyms, habort, hfetched, rfl⟩
    obtain ⟨line, before, ws, hchosen, hleft, rfl⟩ := habort
    obtain ⟨found, hall, hheads⟩ := hfetched
    have hline : lines.getD idx [] = line := by
      rw [List.getD_eq_getElem?_getD, hchosen.there]
      rfl
    rw [if_neg (by omega)]
    refine bind_eq_ok.mpr ⟨steps, hsteps, bind_eq_ok.mpr ⟨syms, hsyms, ?_⟩⟩
    rw [findAbort_chosen.mpr ⟨line, hchosen⟩]
    dsimp only
    rw [hline, search_eq_some.mpr ⟨before, hleft⟩]
    refine bind_eq_ok.mpr ⟨found, mapM_eq_ok.mpr (hall.imp fun _ _ => fetchOf_eq_ok.mpr), ?_⟩
    rw [heads_iff.mp hheads]
    rfl

example : main [str "trace.py", str "error.log", str "unixsys32", str "2"] sampleFile
    [str "translate level 1 abort eia 0x0",
      str "[:] translate address_space 0 access_level 0 table 0x7 address 0x12: address 0x00000020 ok",
      str "translate address_space 0 access_level 0 table address 0x24",
      str "translate address_space 0 access_level 3 table address 0x100",
      str "translate address_space 0 access_level 0 table address 0x14",
      str "[:] translate level 2 abort eia 0x1c"] =
    .ok [str "abort on 0x00001c (main+0xc) at log line 6",
      str "\nlast 2 instruction addresses before it:",
      str "  000020  free_buffers+0x0", str "  000014  main+0x4"] := by decide +kernel

end Sys16.TraceLog
