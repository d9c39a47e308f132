import Sys16.DcuCommands
import Sys16.DcuGeometry

/-!
# The cached shape and the pack's own header

The controller caches a unit's shape at its first look and keeps it until the
next reset, while sector 0 stays writable through the same controller and its
read may fail. A chain's positions agree with the header its pack then has in
every run in which no command replaces a header by one of another shape and no
first look at a header fails.
-/

namespace Sys16.DcuPackShape

open Function DcuMachine DcuGeometry EventRuns

/-- A drive that stores sectors: a read returns what is stored or fails, and
stores nothing. -/
class StoredDrive (D : Type*) extends HardDisk D where
  /-- What is stored at a position; nothing outside the image. -/
  stored : D → ℕ → Option Sector
  read_returns : ∀ d lba b, (read d lba).1 = some b → stored d lba = some b
  read_keeps : ∀ d lba, stored (read d lba).2 = stored d

instance : StoredDrive Image where
  stored d lba := d.blocks[lba]?
  read_returns _ _ _ h := h
  read_keeps _ _ := rfl

variable {D : Type*} {s t u : Dcu D} {unit v fuel a : ℕ} {es : List Event}

/-! ## What a chain uses -/

section AnyDrive

variable [HardDisk D]

/-- The units of a chain and the shapes their positions are computed with, as
the transfer comes to them. -/
def shapesUsed : ℕ → Dcu D → ℕ → List (ℕ × ℕ × ℕ)
  | 0, _, _ => []
  | fuel + 1, s, iocb =>
    let unit := (readIocb s.mem iocb).unit
    let g := dcu_geometry s unit
    (if dcu_unit_ok s unit then [(unit, g.sectors unit, g.heads unit)] else []) ++
      match dcu_iocb s iocb with
      | (s, .next iocb') => shapesUsed fuel s iocb'
      | (_, .stop _) => []

/-- The units whose geometry an executed command asks for. -/
def unitsAsked (fuel : ℕ) (s : Dcu D) : List ℕ :=
  if s.op = DCU_C_ASSDRIVE then
    if dcu_unit_ok s (dcu_arg s >>> 13) then [dcu_arg s >>> 13] else []
  else if s.op = DCU_C_START then (shapesUsed fuel s (dcu_arg s)).map Prod.fst
  else []

/-- A first use caches the shape the header gives and changes only the drive
that was read. -/
theorem dcu_geometry_of_empty (h : s.sectors unit = 0) :
    dcu_geometry s unit = { s.setGeometry unit (geometry s unit) with
      hd := update s.hd unit (HardDisk.read (s.hd unit) 0).2 } := by
  unfold dcu_geometry geometry
  rw [if_neg (not_not.mpr h), if_neg (not_not.mpr h)]
  dsimp only [Dcu.setGeometry]
  cases (HardDisk.read (s.hd unit) 0).1.bind headerGeometry with
  | none => rfl
  | some g => simp only [update_idem, Option.getD_some]

theorem dcu_geometry_of_cached (h : s.sectors unit ≠ 0) : dcu_geometry s unit = s := by
  unfold dcu_geometry
  rw [if_pos h]

/-- How the cache stands to the drives a command began with: what is cached is
the shape found then, and a unit that is not has not been touched. -/
structure Since (s t : Dcu D) : Prop where
  /-- A cached shape is the one the unit had, or would have been given. -/
  cached : ∀ unit, t.sectors unit ≠ 0 → (t.sectors unit, t.heads unit) = geometry s unit
  /-- A unit that has no shape is as it was. -/
  untouched : ∀ unit, t.sectors unit = 0 → s.sectors unit = 0 ∧ t.hd unit = s.hd unit

theorem Since.refl (s : Dcu D) : Since s s :=
  ⟨fun _ h => (geometry_of_cached h).symm, fun _ h => ⟨h, rfl⟩⟩

/-- What a unit is addressed with does not change within a command. -/
theorem Since.geometry_eq (h : Since s t) (unit : ℕ) : geometry t unit = geometry s unit := by
  by_cases hc : t.sectors unit = 0
  · obtain ⟨hs, hd⟩ := h.untouched unit hc
    unfold geometry
    rw [if_neg (not_not.mpr hc), if_neg (not_not.mpr hs), hd]
  · rw [geometry_of_cached hc]
    exact h.cached unit hc

/-- A look at a unit's geometry. -/
theorem Since.geometry (h : Since s t) (unit : ℕ) :
    Since s (dcu_geometry t unit) ∧ (dcu_geometry t unit).sectors unit ≠ 0 := by
  by_cases hc : t.sectors unit = 0
  · rw [dcu_geometry_of_empty hc]
    have hne := geometry_ne_zero t unit
    refine ⟨⟨?_, ?_⟩, by simpa [Dcu.setGeometry] using hne⟩ <;> intro v
    · by_cases hv : v = unit
      · subst hv
        intro _
        simpa [Dcu.setGeometry] using h.geometry_eq v
      · simpa [Dcu.setGeometry, hv] using h.cached v
    · by_cases hv : v = unit
      · subst hv
        intro h0
        exact absurd (by simpa [Dcu.setGeometry] using h0) hne
      · simpa [Dcu.setGeometry, hv] using h.untouched v
  · rw [dcu_geometry_of_cached hc]
    exact ⟨h, hc⟩

theorem dcu_sector_hd (s : Dcu D) (opcode : UInt8) (addr lba : ℕ) (hv : v ≠ unit) :
    (dcu_sector s unit opcode addr lba).1.hd v = s.hd v := by
  unfold dcu_sector
  split
  · exact update_of_ne hv _ _
  · dsimp only
    split <;> exact update_of_ne hv _ _

/-- The sector loop asks only the drive of its unit. -/
theorem dcu_sectors_hd (s : Dcu D) (opcode : UInt8) (table n i lba : ℕ) (resid : UInt8)
    (hv : v ≠ unit) : (dcu_sectors s unit opcode table n i lba resid).1.hd v = s.hd v := by
  induction n generalizing s i lba resid with
  | zero => rfl
  | succ n ih =>
    have h := dcu_sector_hd s opcode (pageAddr s.mem table i) lba hv
    unfold dcu_sectors
    dsimp only
    split
    · exact (ih _ _ _ _).trans h
    · exact h

/-- One round of the chain loop. -/
theorem Since.round (h : Since s t) (a : ℕ) : Since s (dcu_iocb t a).1 := by
  have ha : Since s (dcu_access t (readIocb t.mem a)).1 := by
    unfold dcu_access
    split
    · obtain ⟨hg, hne⟩ := h.geometry (readIocb t.mem a).unit
      have hshape := dcu_sectors_shape (dcu_geometry t (readIocb t.mem a).unit)
      constructor <;> intro v <;> rw [(hshape _ _ _ _ _ _ _).1]
      · rw [(hshape _ _ _ _ _ _ _).2]
        exact hg.cached v
      · intro hv
        have hvu : v ≠ (readIocb t.mem a).unit := fun he => hne (he ▸ hv)
        rw [dcu_sectors_hd _ _ _ _ _ _ _ hvu]
        exact hg.untouched v hv
    · exact h
  unfold dcu_iocb
  dsimp only
  split
  · split <;> exact ⟨ha.cached, ha.untouched⟩
  · exact ⟨ha.cached, ha.untouched⟩

/-- Every position of a chain is computed with the shape its unit had when the
command began, or was given then. -/
theorem Since.shapesUsed (h : Since s t) {x : ℕ × ℕ × ℕ} (hx : x ∈ shapesUsed fuel t a) :
    x.2 = DcuGeometry.geometry s x.1 := by
  induction fuel generalizing t a with
  | zero => cases hx
  | succ fuel ih =>
    unfold DcuPackShape.shapesUsed at hx
    rcases List.mem_append.mp hx with hx | hx
    · split at hx
      · obtain rfl := List.mem_singleton.mp hx
        obtain ⟨hg, hne⟩ := h.geometry (readIocb t.mem a).unit
        exact hg.cached _ hne
      · cases hx
    · have hr := h.round a
      split at hx
      · next he =>
        rw [he] at hr
        exact ih hr hx
      · cases hx

/-- A transfer that runs to an end. -/
theorem Since.transfer {ok : Bool} (h : Since s t) (hr : dcu_transfer fuel t a = some (u, ok)) :
    Since s u := by
  induction fuel generalizing t a with
  | zero => cases hr
  | succ fuel ih =>
    have hround := h.round a
    unfold dcu_transfer at hr
    split at hr
    · next he =>
      rw [he] at hround
      exact ih hround hr
    · next he =>
      rw [he] at hround
      cases hr
      exact hround

/-- A unit that has a shape after a transfer had one before or is among those asked. -/
theorem transfer_asked {ok : Bool} (hr : dcu_transfer fuel t a = some (u, ok))
    (hu : u.sectors unit ≠ 0) :
    t.sectors unit ≠ 0 ∨ unit ∈ (shapesUsed fuel t a).map Prod.fst := by
  induction fuel generalizing t a with
  | zero => cases hr
  | succ fuel ih =>
    have hround : (dcu_iocb t a).1.sectors unit ≠ 0 → t.sectors unit ≠ 0 ∨
        unit = (readIocb t.mem a).unit ∧ dcu_unit_ok t (readIocb t.mem a).unit = true := by
      intro hne
      have hsame : (dcu_iocb t a).1.sectors = (dcu_access t (readIocb t.mem a)).1.sectors := by
        unfold dcu_iocb
        dsimp only
        split
        · split <;> rfl
        · rfl
      rw [hsame] at hne
      unfold dcu_access at hne
      split at hne
      · next hok =>
        rw [(dcu_sectors_shape _ _ _ _ _ _ _ _).1] at hne
        by_cases hv : unit = (readIocb t.mem a).unit
        · exact Or.inr ⟨hv, hok⟩
        · left
          by_cases hc : t.sectors (readIocb t.mem a).unit = 0
          · rw [dcu_geometry_of_empty hc] at hne
            simpa [Dcu.setGeometry, hv] using hne
          · rwa [dcu_geometry_of_cached hc] at hne
      · exact Or.inl hne
    have hhead : unit = (readIocb t.mem a).unit ∧ dcu_unit_ok t (readIocb t.mem a).unit = true →
        unit ∈ (shapesUsed (fuel + 1) t a).map Prod.fst := by
      rintro ⟨rfl, hok⟩
      unfold shapesUsed
      simp [hok]
    unfold dcu_transfer at hr
    split at hr
    · next he =>
      rw [he] at hround
      rcases ih hr with h | h
      · exact (hround h).imp_right hhead
      · right
        unfold shapesUsed
        rw [he, List.map_append]
        exact List.mem_append_right _ h
    · next he =>
      rw [he] at hround
      cases hr
      exact (hround hu).imp_right hhead

theorem dcu_execute_assdrive (fuel : ℕ) (hop : s.op = DCU_C_ASSDRIVE)
    (hok : dcu_unit_ok s (dcu_arg s >>> 13) = true) :
    ∃ ok, dcu_execute fuel s =
      some (dcu_geometry { s with unit := dcu_arg s >>> 13 } (dcu_arg s >>> 13), ok) := by
  unfold dcu_execute
  rw [if_neg (by rw [hop]; decide), if_neg (by rw [hop]; decide), if_pos hop]
  dsimp only
  rw [if_pos (show dcu_unit_ok { s with unit := dcu_arg s >>> 13 } (dcu_arg s >>> 13) = true
    from hok)]
  exact ⟨_, rfl⟩

/-- What a command does to the cache: it keeps it, or looks at the units it asks for. -/
theorem dcu_execute_since {ok : Bool} (h : dcu_execute fuel s = some (u, ok)) :
    Since s u ∧ ∀ unit, u.sectors unit ≠ 0 → s.sectors unit ≠ 0 ∨ unit ∈ unitsAsked fuel s := by
  have hkeep : ∀ w : Dcu D, w.sectors = s.sectors → w.heads = s.heads → w.hd = s.hd →
      Since s w ∧ ∀ unit, w.sectors unit ≠ 0 →
        s.sectors unit ≠ 0 ∨ unit ∈ unitsAsked fuel s := by
    intro w h1 h2 h3
    refine ⟨⟨?_, ?_⟩, fun unit hne => Or.inl (h1 ▸ hne)⟩ <;> intro v
    · rw [h1, h2]
      exact fun hne => (geometry_of_cached hne).symm
    · rw [h1, h3]
      exact fun h0 => ⟨h0, rfl⟩
  unfold dcu_execute at h
  split_ifs at h with h1 h2 h3 h4 h5
  · cases h
    exact hkeep _ rfl rfl rfl
  · cases h
    exact hkeep _ rfl rfl rfl
  · dsimp only at h
    split_ifs at h with hu
    · cases h
      obtain ⟨hs, hold⟩ := hkeep { s with unit := dcu_arg s >>> 13 } rfl rfl rfl
      refine ⟨(hs.geometry _).1, ?_⟩
      intro v hne
      by_cases hv : v = dcu_arg s >>> 13
      · right
        have hok : dcu_unit_ok s (dcu_arg s >>> 13) = true := hu
        rw [unitsAsked, if_pos h3, if_pos hok, hv]
        exact List.mem_singleton_self _
      · refine hold v ?_
        by_cases hc : s.sectors (dcu_arg s >>> 13) = 0
        · rw [dcu_geometry_of_empty (s := { s with unit := dcu_arg s >>> 13 }) hc] at hne
          simpa [Dcu.setGeometry, hv] using hne
        · rwa [dcu_geometry_of_cached (s := { s with unit := dcu_arg s >>> 13 }) hc] at hne
    · cases h
      exact hkeep _ rfl rfl rfl
  · cases h
    exact hkeep _ rfl rfl rfl
  · refine ⟨(Since.refl s).transfer h, ?_⟩
    intro unit hne
    rw [unitsAsked, if_neg h3, if_pos h5]
    exact transfer_asked h hne
  · cases h
    exact hkeep _ rfl rfl rfl

end AnyDrive

/-! ## Runs -/

variable [StoredDrive D]

/-- The shape that the disktab in a pack's sector 0 names, or the BASF one. -/
def packShape (d : D) : ℕ × ℕ :=
  ((StoredDrive.stored d 0).bind headerGeometry).getD (DCU_SECTORS, DCU_HEADS)

/-- Every shape the controller has cached is that of the pack. -/
def Coherent (t : Dcu D) : Prop :=
  ∀ unit, t.sectors unit ≠ 0 → (t.sectors unit, t.heads unit) = packShape (t.hd unit)

/-- A chain that a state is about to run computes the positions of every unit
with the shape that unit's pack has at the start of the chain. -/
def ChainMatches (fuel : ℕ) (t : Dcu D) : Prop :=
  t.op = DCU_C_START →
    ∀ x ∈ shapesUsed fuel { t with timer := false } (dcu_arg t), x.2 = packShape (t.hd x.1)

/-- In every state of a run the cached shapes are those of the packs, and every
chain the run executes is addressed with the shapes of the packs. -/
def GeometryMatches (fuel : ℕ) (s : Dcu D) (es : List Event) : Prop :=
  (Along (step fuel) s es fun _ t => Coherent t) ∧
    Steps (step fuel) s es fun _ t e => e = .expire → t.timer = true → ChainMatches fuel t

/-- An event neither fails a first look at a header nor gives a pack a header
of another shape. -/
structure KeepsShapes (fuel : ℕ) (t : Dcu D) (e : Event) : Prop where
  /-- A header that cannot be read at a first look would have named no other
  shape than the default. -/
  readable : e = .expire → t.timer = true → ∀ unit ∈ unitsAsked fuel { t with timer := false },
    t.sectors unit = 0 → (HardDisk.read (t.hd unit) 0).1 = none →
      packShape (t.hd unit) = (DCU_SECTORS, DCU_HEADS)
  /-- Sector 0 of each pack names the same shape after the event. -/
  header : ∀ u, step fuel t e = some u → ∀ unit, packShape (u.hd unit) = packShape (t.hd unit)

/-- A unit is addressed with its pack's shape when its cache agrees and its
header can be read. -/
theorem geometry_eq_packShape (hc : Coherent t)
    (hr : t.sectors unit = 0 → (HardDisk.read (t.hd unit) 0).1 = none →
      packShape (t.hd unit) = (DCU_SECTORS, DCU_HEADS)) :
    geometry t unit = packShape (t.hd unit) := by
  by_cases h0 : t.sectors unit = 0
  · unfold geometry
    rw [if_neg (not_not.mpr h0)]
    cases hread : (HardDisk.read (t.hd unit) 0).1 with
    | none => exact (hr h0 hread).symm
    | some b =>
      unfold packShape
      rw [StoredDrive.read_returns _ _ _ hread]
  · rw [geometry_of_cached h0]
    exact hc unit h0

/-- An event other than an expiry keeps the drives, and the cache or empties it. -/
theorem step_since {e : Event} (he : e ≠ .expire) (h : step fuel t e = some u) :
    u.hd = t.hd ∧ (Coherent t → Coherent u) := by
  cases e with
  | read offset =>
    cases h
    exact ⟨rfl, id⟩
  | store addr data =>
    cases h
    exact ⟨rfl, id⟩
  | reset =>
    cases h
    exact ⟨rfl, fun _ unit hne => absurd rfl hne⟩
  | expire => exact absurd rfl he
  | write offset data =>
    cases h
    unfold dcu_w
    split <;> exact ⟨rfl, id⟩

/-- What an expiry does to the cache and the drives is what its command does. -/
theorem expire_since (h : step fuel t .expire = some u) :
    Since { t with timer := false } u ∧ ∀ unit, u.sectors unit ≠ 0 →
      t.sectors unit ≠ 0 ∨ unit ∈ unitsAsked fuel { t with timer := false } := by
  simp only [step] at h
  split_ifs at h
  simp only [dcu_complete, Option.map_eq_some_iff] at h
  obtain ⟨⟨v, ok⟩, hv, rfl⟩ := h
  obtain ⟨hs, ha⟩ := dcu_execute_since hv
  exact ⟨⟨hs.cached, hs.untouched⟩, ha⟩

/-- An event that keeps the shapes keeps the cache coherent. -/
theorem step_coherent {e : Event} (hc : Coherent t) (hk : KeepsShapes fuel t e)
    (h : step fuel t e = some u) : Coherent u := by
  by_cases he : e = .expire
  · subst he
    obtain ⟨hs, ha⟩ := expire_since h
    intro unit hne
    rw [hs.cached unit hne, hk.header u h unit]
    refine geometry_eq_packShape (t := { t with timer := false }) hc fun h0 hnone => ?_
    exact hk.readable rfl (DcuCommands.step_expire h).1 unit
      ((ha unit hne).resolve_left (not_not.mpr h0)) h0 hnone
  · exact (step_since he h).2 hc

theorem unitsAsked_start (hop : t.op = DCU_C_START) :
    unitsAsked fuel t = (shapesUsed fuel t (dcu_arg t)).map Prod.fst := by
  unfold unitsAsked
  rw [if_neg (by rw [hop]; decide), if_pos hop]

/-- A chain is addressed with the shapes of the packs when every header it
looks at for the first time can be read. -/
theorem chain_matches (hc : Coherent t) (ht : t.timer = true) (hk : KeepsShapes fuel t .expire) :
    ChainMatches fuel t := by
  intro hop x hx
  have hasked : x.1 ∈ unitsAsked fuel { t with timer := false } := by
    rw [unitsAsked_start (t := { t with timer := false }) hop]
    exact List.mem_map_of_mem hx
  rw [(Since.refl { t with timer := false }).shapesUsed hx]
  exact geometry_eq_packShape (t := { t with timer := false }) hc
    (hk.readable rfl ht x.1 hasked)

/-- A first look that fails gives the default shape. -/
theorem geometry_of_unread (h0 : t.sectors unit = 0)
    (hr : (HardDisk.read (t.hd unit) 0).1 = none) :
    geometry t unit = (DCU_SECTORS, DCU_HEADS) := by
  unfold geometry
  rw [if_neg (not_not.mpr h0), hr]
  rfl

/-- After an assignment of a drive that is there the unit has a shape, and its
pack is as it was. -/
theorem assdrive_looks (fuel : ℕ) (ht : t.timer = true) (hop : t.op = DCU_C_ASSDRIVE)
    (hok : dcu_unit_ok t (dcu_arg t >>> 13) = true) :
    ∃ u, step fuel t .expire = some u ∧ u.sectors (dcu_arg t >>> 13) ≠ 0 ∧
      packShape (u.hd (dcu_arg t >>> 13)) = packShape (t.hd (dcu_arg t >>> 13)) := by
  obtain ⟨ok, hexec⟩ := dcu_execute_assdrive (s := { t with timer := false }) fuel hop hok
  have hne := ((Since.refl { t with timer := false, unit := dcu_arg t >>> 13 }).geometry
    (dcu_arg t >>> 13)).2
  have hkeep : packShape ((dcu_geometry { t with timer := false, unit := dcu_arg t >>> 13 }
      (dcu_arg t >>> 13)).hd (dcu_arg t >>> 13)) = packShape (t.hd (dcu_arg t >>> 13)) := by
    by_cases h0 : t.sectors (dcu_arg t >>> 13) = 0
    · rw [dcu_geometry_of_empty (s := { t with timer := false, unit := dcu_arg t >>> 13 }) h0]
      unfold packShape
      dsimp only
      rw [update_self, StoredDrive.read_keeps]
    · rw [dcu_geometry_of_cached (s := { t with timer := false, unit := dcu_arg t >>> 13 }) h0]
  have hstep : step fuel t .expire = dcu_complete fuel { t with timer := false } := if_pos ht
  rw [hstep, dcu_complete, hexec]
  exact ⟨_, rfl, hne, hkeep⟩

/-- An event after which the cache is coherent, and whose chain matches, keeps the shapes. -/
theorem keepsShapes_of_matches {e : Event} (hc : Coherent t)
    (hu : ∀ u, step fuel t e = some u → Coherent u)
    (hm : e = .expire → t.timer = true → ChainMatches fuel t) : KeepsShapes fuel t e := by
  have hasked : e = .expire → t.timer = true → ∀ unit ∈ unitsAsked fuel { t with timer := false },
      geometry t unit = packShape (t.hd unit) := by
    intro he ht unit hmem
    subst he
    by_cases hop : t.op = DCU_C_ASSDRIVE
    · by_cases hok : dcu_unit_ok t (dcu_arg t >>> 13) = true
      · have hunit : unitsAsked fuel { t with timer := false } = [dcu_arg t >>> 13] := by
          unfold unitsAsked
          rw [if_pos hop]
          exact if_pos hok
        rw [hunit] at hmem
        obtain rfl := List.mem_singleton.mp hmem
        obtain ⟨u, hs, hne, hsame⟩ := assdrive_looks fuel ht hop hok
        rw [← hsame, ← hu u hs _ hne]
        exact ((expire_since hs).1.cached _ hne).symm
      · have hunit : unitsAsked fuel { t with timer := false } = [] := by
          unfold unitsAsked
          rw [if_pos hop]
          exact if_neg hok
        rw [hunit] at hmem
        cases hmem
    · by_cases hstart : t.op = DCU_C_START
      · rw [unitsAsked_start (t := { t with timer := false }) hstart] at hmem
        obtain ⟨x, hx, rfl⟩ := List.mem_map.mp hmem
        rw [← hm rfl ht hstart x hx]
        exact ((Since.refl { t with timer := false }).shapesUsed hx).symm
      · have hunit : unitsAsked fuel { t with timer := false } = [] := by
          unfold unitsAsked
          rw [if_neg hop, if_neg hstart]
        rw [hunit] at hmem
        cases hmem
  constructor
  · intro he ht unit hmem h0 hnone
    rw [← hasked he ht unit hmem, geometry_of_unread h0 hnone]
  · intro u hs unit
    by_cases he : e = .expire
    · subst he
      obtain ⟨hsince, ha⟩ := expire_since hs
      by_cases hne : u.sectors unit = 0
      · rw [(hsince.untouched unit hne).2]
      · have hbefore : geometry t unit = packShape (t.hd unit) := by
          rcases ha unit hne with h0 | h0
          · rw [geometry_of_cached h0]
            exact hc unit h0
          · exact hasked rfl (DcuCommands.step_expire hs).1 unit h0
        rw [← hu u hs unit hne, ← hbefore]
        exact hsince.cached unit hne
    · rw [(step_since he hs).1]

/-- From power-on, the cached shapes and the shapes of every chain are those of
the packs' own headers if and only if no event fails a first look at a header
of another shape than the default, or gives a pack a header of another shape. -/
theorem geometry_matches_iff {hd : ℕ → D} {mem : Memory} :
    GeometryMatches fuel (powerOn hd mem) es ↔
      Steps (step fuel) (powerOn hd mem) es fun _ t e => KeepsShapes fuel t e := by
  constructor
  · intro ⟨hcoherent, hchains⟩ pre e t hp ht
    refine keepsShapes_of_matches
      (hcoherent pre t ((List.prefix_append pre [e]).trans hp) ht) ?_
      (fun he htimer => hchains pre e t hp ht he htimer)
    intro u hu
    exact hcoherent _ u hp (run_concat_eq_some.mpr ⟨t, ht, hu⟩)
  · intro hq
    have hinv : Along (step fuel) (powerOn hd mem) es fun _ t => Coherent t :=
      Along.of_steps (fun unit hne => absurd rfl hne)
        (fun _ _ _ _ hc hk hs => step_coherent hc hk hs) hq
    refine ⟨hinv, ?_⟩
    intro pre e t hp ht he htimer
    subst he
    exact chain_matches (hinv pre t ((List.prefix_append pre _).trans hp) ht) htimer
      (hq pre _ t hp ht)

/-- Memory with an IOCB at 0x100 that writes the page at 0x400 to sector 0 of
unit 0, and in the page a disktab of 18 sectors and 5 heads. -/
def newHeader : Memory := fun x =>
  if x = 0x100 then DCU_C_WRITE else if x = 0x103 then 1 else if x = 0x10b then 2
  else if x = 0x201 then 4 else if x = 0x401 then 0x70 else if x = 0x402 then 0x73
  else if x = 0x403 then 0x6d else if x = 0x408 then 18 else if x = 0x40a then 5 else 0

/-- Two packs of one cleared sector. -/
def clearedPacks : Dcu Image := powerOn (fun _ => ⟨[fun _ => 0]⟩) newHeader

/-- The guest orders the transfer at 0x100, acknowledges it and orders it again. -/
def headerTwice : List Event :=
  [.write 1 1, .write 3 0x18, .expire, .write 4 0, .write 3 0x18, .expire]

/-- Where the second transfer of `headerTwice` stands before it runs: its
opcode, the shape it uses and the shape of the pack. -/
def beforeSecond : Option (UInt8 × List (ℕ × ℕ × ℕ) × ℕ × ℕ) :=
  (run (step 1) clearedPacks (headerTwice.take 5)).map fun t =>
    (t.op, shapesUsed 1 { t with timer := false } (dcu_arg t), packShape (t.hd 0))

/-- A pack whose header has been written is still addressed with the shape
found before: 24 sectors and 3 heads, where its header says 18 and 5. -/
theorem stale_shape :
    ¬∀ es, Steps (step 1) clearedPacks es
      fun _ t e => e = .expire → t.timer = true → ChainMatches 1 t := by
  intro h
  have hsecond : beforeSecond = some (DCU_C_START, [(0, 24, 3)], 18, 5) := by decide +kernel
  obtain ⟨t, ht, hval⟩ := Option.map_eq_some_iff.mp hsecond
  have hop : t.op = DCU_C_START := congrArg Prod.fst hval
  have hused : shapesUsed 1 { t with timer := false } (dcu_arg t) = [(0, 24, 3)] :=
    congrArg (fun x => x.2.1) hval
  have hpack : packShape (t.hd 0) = (18, 5) := congrArg (fun x => x.2.2) hval
  have htimer : t.timer = true := by
    obtain ⟨v, _, hv⟩ := run_concat_eq_some.mp (show run (step 1) clearedPacks
      (headerTwice.take 4 ++ [.write 3 0x18]) = some t from ht)
    cases hv
    rfl
  have hmatch := h headerTwice (headerTwice.take 5) .expire t List.prefix_rfl ht rfl htimer hop
    (0, 24, 3) (by rw [hused]; exact List.mem_singleton_self _)
  rw [hpack] at hmatch
  exact absurd hmatch (by decide)

end Sys16.DcuPackShape
