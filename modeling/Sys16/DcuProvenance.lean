import Sys16.DcuReport
import Sys16.DcuTermination

/-!
# Where every byte the controller leaves behind comes from

The chain loop acts on IOCBs as memory holds them when it comes to them, and
a transfer may store into its own IOCBs, page tables and pages. Whatever the
guest has set up, a sector changes only for a WRITE or FORMAT that names it,
and a byte of memory only as the status or residual of an IOCB visited or
with a byte of a sector that IOCB reads.
-/

namespace Sys16.DcuProvenance

open Function DcuMachine DcuMemory DcuGeometry DcuSectorStore DcuTermination EventRuns StoreHistory
  LoopRuns

variable {D : Type*} [FlatDrive D] {s t u : Dcu D} {a fuel : ℕ} {opcode : UInt8}

/-! ## What one visit of an IOCB accounts for -/

/-- The IOCB at an address names a sector and leaves it with these bytes: zeros
for a FORMAT, and for a WRITE the page of the sector's index. -/
def Stores (s : Dcu D) (a : ℕ) (p : ℕ × ℕ) (b : Sector) : Prop :=
  let c := readIocb s.mem a
  dcu_unit_ok s c.unit = true ∧ ∃ k < c.count.toNat,
    p = (c.unit, Iocb.position c (geometry s c.unit) + k) ∧
      (c.opcode = DCU_C_FORMAT ∧ b = (fun _ => 0) ∨
        c.opcode = DCU_C_WRITE ∧ b = s.mem.readPage (pageAddr s.mem c.table k))

/-- An event is the expiry that runs a DC_START, which comes to an IOCB. -/
def Visits (s : Dcu D) (e : Event) (u : Dcu D) (a : ℕ) : Prop :=
  e = .expire ∧ s.op = DCU_C_START ∧
    ∃ n, visited { s with timer := false } (dcu_arg s) n = some (u, a)

/-! ## Sector accesses -/

/-- A stored page is the old memory or bytes of the buffer. -/
theorem writePage_origin (m : Memory) (addr : ℕ) (b : Sector) (x : ℕ) :
    m.writePage addr b x = m x ∨
      ∃ i : Fin 512, x = u32 (addr + i) ∧ m.writePage addr b x = b i := by
  by_cases hx : x ∈ span addr 512
  · obtain ⟨i, hi, rfl⟩ := hx
    have h := congrFun (readPage_writePage m addr b) ⟨i, hi⟩
    exact Or.inr ⟨⟨i, hi⟩, rfl, h⟩
  · exact Or.inl (writePage_frame m addr b x hx)

/-- A WRITE or FORMAT access changes its own sector at most, and no memory. -/
theorem dcu_sector_stores (unit : ℕ)
    (hw : opcode = DCU_C_WRITE ∨ opcode = DCU_C_FORMAT) (addr lba : ℕ) :
    (dcu_sector s unit opcode addr lba).1.mem = s.mem ∧
      ∀ p, contents (dcu_sector s unit opcode addr lba).1 p = contents s p ∨
        p = (unit, lba) ∧ contents (dcu_sector s unit opcode addr lba).1 p =
          some (if opcode = DCU_C_FORMAT then fun _ => 0 else s.mem.readPage addr) := by
  by_cases hp : lba < FlatDrive.size (s.hd unit)
  · unfold dcu_sector
    rw [if_pos hw]
    refine ⟨rfl, fun p => ?_⟩
    dsimp only
    rw [write_contents _ hp]
    by_cases he : p = (unit, lba)
    · subst he
      exact Or.inr ⟨rfl, update_self _ _ _⟩
    · exact Or.inl (update_of_ne he _ _)
  · have hr := dcu_sector_refused (o := ⟨opcode, unit, lba, addr⟩) s (Nat.not_lt.mp hp)
    dsimp only at hr
    rw [hr]
    exact ⟨rfl, fun p => Or.inl rfl⟩

/-- Any other access leaves the drives alone and stores bytes of its sector. -/
theorem dcu_sector_fills (unit : ℕ)
    (hw : ¬(opcode = DCU_C_WRITE ∨ opcode = DCU_C_FORMAT)) (addr lba : ℕ) :
    (dcu_sector s unit opcode addr lba).1.hd = s.hd ∧
      ∀ x, (dcu_sector s unit opcode addr lba).1.mem x = s.mem x ∨
        ∃ b : Sector, ∃ i : Fin 512, contents s (unit, lba) = some b ∧ x = u32 (addr + i) ∧
          (dcu_sector s unit opcode addr lba).1.mem x = b i := by
  cases hb : contents s (unit, lba) with
  | none =>
    have hp : FlatDrive.size (s.hd unit) ≤ lba :=
      Nat.not_lt.mp fun h => by simpa [hb] using (contents_isSome s (unit, lba)).mpr h
    have hr := dcu_sector_refused (o := ⟨opcode, unit, lba, addr⟩) s hp
    dsimp only at hr
    rw [hr]
    exact ⟨rfl, fun x => Or.inl rfl⟩
  | some b =>
    have hr := dcu_sector_read_eq (s := s) (o := ⟨opcode, unit, lba, addr⟩) hw hb
    have horigin := writePage_origin s.mem addr b
    dsimp only at hr
    rw [hr]
    generalize s.mem.writePage addr b = m' at horigin
    refine ⟨rfl, fun x => ?_⟩
    rcases horigin x with h | ⟨i, hx, hv⟩
    · exact Or.inl h
    · exact Or.inr ⟨b, i, rfl, hx, hv⟩

/-- The sector loop of a WRITE or FORMAT takes every page it stores from
memory as it was when the loop was entered. -/
theorem dcu_sectors_stores (unit : ℕ)
    (hw : opcode = DCU_C_WRITE ∨ opcode = DCU_C_FORMAT) (table lba n i : ℕ) (resid : UInt8) :
    (dcu_sectors s unit opcode table n i (u32 (lba + i)) resid).1.mem = s.mem ∧
      ∀ p, contents (dcu_sectors s unit opcode table n i (u32 (lba + i)) resid).1 p =
          contents s p ∨
        ∃ k, k < i + n ∧ p = (unit, u32 (lba + k)) ∧
          contents (dcu_sectors s unit opcode table n i (u32 (lba + i)) resid).1 p =
            some (if opcode = DCU_C_FORMAT then fun _ => 0
              else s.mem.readPage (pageAddr s.mem table k)) := by
  induction n generalizing s i resid with
  | zero => exact ⟨rfl, fun p => Or.inl rfl⟩
  | succ n ih =>
    obtain ⟨hm, hc⟩ := dcu_sector_stores (s := s) unit hw (pageAddr s.mem table i)
      (u32 (lba + i))
    have hnext : u32 (u32 (lba + i) + 1) = u32 (lba + (i + 1)) := by
      unfold u32
      omega
    unfold dcu_sectors
    dsimp only
    rw [hnext]
    split
    · obtain ⟨hm', hc'⟩ := ih
        (s := (dcu_sector s unit opcode (pageAddr s.mem table i) (u32 (lba + i))).1)
        (i + 1) (resid - 1)
      refine ⟨hm'.trans hm, fun p => ?_⟩
      rcases hc' p with h | ⟨k, hk, hp, h⟩
      · rcases hc p with h0 | ⟨hp, h0⟩
        · exact Or.inl (h.trans h0)
        · exact Or.inr ⟨i, by omega, hp, h.trans h0⟩
      · rw [hm] at h
        exact Or.inr ⟨k, by omega, hp, h⟩
    · refine ⟨hm, fun p => ?_⟩
      rcases hc p with h | ⟨hp, h⟩
      · exact Or.inl h
      · exact Or.inr ⟨i, by omega, hp, h⟩

/-- The sector loop of any other opcode leaves the drives alone, and what it
stores in memory are bytes of the sectors it has come to. -/
theorem dcu_sectors_fills (unit : ℕ)
    (hw : ¬(opcode = DCU_C_WRITE ∨ opcode = DCU_C_FORMAT)) (table lba n i : ℕ) (resid : UInt8) :
    (dcu_sectors s unit opcode table n i (u32 (lba + i)) resid).1.hd = s.hd ∧
      ∀ x, (dcu_sectors s unit opcode table n i (u32 (lba + i)) resid).1.mem x = s.mem x ∨
        ∃ k < n, ∃ b : Sector, ∃ j : Fin 512,
          contents s (unit, u32 (lba + (i + k))) = some b ∧
          x = u32 (pageAddr (dcu_sectors s unit opcode table k i (u32 (lba + i)) resid).1.mem
            table (i + k) + j) ∧
          (dcu_sectors s unit opcode table n i (u32 (lba + i)) resid).1.mem x = b j := by
  induction n generalizing s i resid with
  | zero => exact ⟨rfl, fun x => Or.inl rfl⟩
  | succ n ih =>
    obtain ⟨hhd, hc⟩ := dcu_sector_fills (s := s) unit hw (pageAddr s.mem table i)
      (u32 (lba + i))
    have hnext : u32 (u32 (lba + i) + 1) = u32 (lba + (i + 1)) := by
      unfold u32
      omega
    have hfirst : ∀ x, (dcu_sector s unit opcode (pageAddr s.mem table i) (u32 (lba + i))).1.mem x =
        s.mem x ∨ ∃ b : Sector, ∃ j : Fin 512, contents s (unit, u32 (lba + (i + 0))) = some b ∧
          x = u32 (pageAddr (dcu_sectors s unit opcode table 0 i (u32 (lba + i)) resid).1.mem
            table (i + 0) + j) ∧
          (dcu_sector s unit opcode (pageAddr s.mem table i) (u32 (lba + i))).1.mem x = b j := hc
    by_cases hok : (dcu_sector s unit opcode (pageAddr s.mem table i) (u32 (lba + i))).2 = true
    · have hstep : ∀ k, dcu_sectors s unit opcode table (k + 1) i (u32 (lba + i)) resid =
          dcu_sectors (dcu_sector s unit opcode (pageAddr s.mem table i) (u32 (lba + i))).1 unit
            opcode table k (i + 1) (u32 (lba + (i + 1))) (resid - 1) := by
        intro k
        conv_lhs => unfold dcu_sectors
        dsimp only
        rw [if_pos hok, hnext]
      obtain ⟨hhd', hc'⟩ := ih
        (s := (dcu_sector s unit opcode (pageAddr s.mem table i) (u32 (lba + i))).1)
        (i + 1) (resid - 1)
      rw [hstep n]
      refine ⟨hhd'.trans hhd, fun x => ?_⟩
      rcases hc' x with h | ⟨k, hk, b, j, hb, hx, h⟩
      · rcases hfirst x with h0 | ⟨b, j, hb, hx, h0⟩
        · exact Or.inl (h.trans h0)
        · exact Or.inr ⟨0, Nat.succ_pos n, b, j, hb, hx, h.trans h0⟩
      · have hshift : i + 1 + k = i + (k + 1) := by omega
        have hsame : contents (dcu_sector s unit opcode (pageAddr s.mem table i)
            (u32 (lba + i))).1 = contents s := by
          funext p
          unfold contents
          rw [hhd]
        rw [hsame, hshift] at hb
        rw [hshift] at hx
        exact Or.inr ⟨k + 1, by omega, b, j, hb, by rw [hstep k]; exact hx, h⟩
    · have hend : dcu_sectors s unit opcode table (n + 1) i (u32 (lba + i)) resid =
          ((dcu_sector s unit opcode (pageAddr s.mem table i) (u32 (lba + i))).1, resid,
            false) := by
        conv_lhs => unfold dcu_sectors
        dsimp only
        rw [if_neg hok]
      rw [hend]
      refine ⟨hhd, fun x => ?_⟩
      rcases hfirst x with h | h
      · exact Or.inl h
      · exact Or.inr ⟨0, Nat.succ_pos n, h⟩

theorem contents_congr (h : t.hd = s.hd) : contents t = contents s := by
  funext p
  unfold contents
  rw [h]

/-- A visit without a usable unit moves nothing. -/
theorem dcu_access_absent {c : Iocb} (h : ¬dcu_unit_ok s c.unit = true) :
    dcu_access s c = (s, c.count, false) := if_neg h

/-- A visit with a usable unit runs the sector loop from the IOCB's position. -/
theorem dcu_access_present {c : Iocb} (h : dcu_unit_ok s c.unit = true) :
    dcu_access s c = dcu_sectors (dcu_geometry s c.unit) c.unit c.opcode c.table c.count.toNat 0
      (u32 (Iocb.position c (geometry s c.unit) + 0)) c.count := by
  have hlba : u32 (Iocb.position c (geometry s c.unit) + 0) =
      c.lba ((dcu_geometry s c.unit).sectors c.unit) ((dcu_geometry s c.unit).heads c.unit) := by
    rw [← (dcu_geometry_cached s c.unit).2]
    rfl
  unfold dcu_access
  rw [if_pos h, hlba]

/-- Where an IOCB's sectors stand, none of them wrapped. -/
theorem u32_position (hr : InRange s) {k : ℕ} (hk : k < (readIocb s.mem a).count.toNat) :
    u32 (Iocb.position (readIocb s.mem a) (geometry s (readIocb s.mem a).unit) + k) =
      Iocb.position (readIocb s.mem a) (geometry s (readIocb s.mem a).unit) + k := by
  obtain ⟨h1, h2⟩ := geometry_inRange hr (readIocb s.mem a).unit
  have hfit := position_fit (m := s.mem) h1 h2 a
  exact Nat.mod_eq_of_lt (by omega)

/-- What one round of the chain loop leaves: the drives its access left, and
the access's memory with the residual and one of three ending statuses. -/
theorem dcu_iocb_parts (s : Dcu D) (a : ℕ) :
    (dcu_iocb s a).1.hd = (dcu_access s (readIocb s.mem a)).1.hd ∧
      ∃ v ∈ [IOCB_ES_DONE, IOCB_ES_CHAIN, IOCB_ES_DRIVE], (dcu_iocb s a).1.mem =
        ((dcu_access s (readIocb s.mem a)).1.mem.write_byte (a + IOCB_RESID)
          (dcu_access s (readIocb s.mem a)).2.1).write_byte (a + IOCB_STATUS) v := by
  unfold dcu_iocb
  dsimp only
  split
  · split
    · exact ⟨rfl, _, by simp, rfl⟩
    · exact ⟨rfl, _, by simp, rfl⟩
  · exact ⟨rfl, _, by simp, rfl⟩

/-- A sector that one round of the chain loop has changed is one that the
round's IOCB stores. -/
theorem dcu_iocb_stores (hr : InRange s) (a : ℕ) (p : ℕ × ℕ) :
    contents (dcu_iocb s a).1 p = contents s p ∨
      ∃ b, contents (dcu_iocb s a).1 p = some b ∧ Stores s a p b := by
  rw [contents_congr (dcu_iocb_parts s a).1]
  by_cases hu : dcu_unit_ok s (readIocb s.mem a).unit = true
  · have hgeo := contents_congr (dcu_geometry_hd s (readIocb s.mem a).unit)
    rw [dcu_access_present hu]
    by_cases hw : (readIocb s.mem a).opcode = DCU_C_WRITE ∨ (readIocb s.mem a).opcode = DCU_C_FORMAT
    · obtain ⟨_, hc⟩ := dcu_sectors_stores (s := dcu_geometry s (readIocb s.mem a).unit)
        (readIocb s.mem a).unit hw (readIocb s.mem a).table
        (Iocb.position (readIocb s.mem a) (geometry s (readIocb s.mem a).unit))
        (readIocb s.mem a).count.toNat 0 (readIocb s.mem a).count
      rcases hc p with h | ⟨k, hk, hp, h⟩
      · exact Or.inl (h.trans (congrFun hgeo p))
      · rw [Nat.zero_add] at hk
        rw [u32_position hr hk] at hp
        rw [dcu_geometry_mem] at h
        refine Or.inr ⟨_, h, hu, k, hk, hp, ?_⟩
        by_cases hf : (readIocb s.mem a).opcode = DCU_C_FORMAT
        · exact Or.inl ⟨hf, if_pos hf⟩
        · exact Or.inr ⟨hw.resolve_right hf, if_neg hf⟩
    · obtain ⟨hhd, _⟩ := dcu_sectors_fills (s := dcu_geometry s (readIocb s.mem a).unit)
        (readIocb s.mem a).unit hw (readIocb s.mem a).table
        (Iocb.position (readIocb s.mem a) (geometry s (readIocb s.mem a).unit))
        (readIocb s.mem a).count.toNat 0 (readIocb s.mem a).count
      exact Or.inl (congrFun ((contents_congr hhd).trans hgeo) p)
  · rw [dcu_access_absent hu]
    exact Or.inl rfl

theorem visited_succ {b : ℕ} (h : (dcu_iocb s a).2 = .next b) (n : ℕ) :
    visited s a (n + 1) = visited (dcu_iocb s a).1 b n := by
  have hf : follow (s, a) = some ((dcu_iocb s a).1, b) := by
    unfold follow
    rw [← Prod.eta (dcu_iocb s a), h]
  unfold visited
  rw [nth_succ', hf, Option.bind_some]

section Observation

variable {β : Type*} {f : Dcu D → β} {Q : Dcu D → ℕ → β → Prop}

/-- Where a transfer's value of an observation comes from, when every round of
the chain loop keeps the observation or accounts for it. -/
theorem dcu_transfer_origin {ok : Bool}
    (hstep : ∀ u a, InRange u → f (dcu_iocb u a).1 = f u ∨ Q u a (f (dcu_iocb u a).1))
    (hr : InRange s) (h : dcu_transfer fuel s a = some (t, ok)) :
    f t = f s ∨ ∃ n u b, visited s a n = some (u, b) ∧ Q u b (f t) := by
  induction fuel generalizing s a with
  | zero => cases h
  | succ fuel ih =>
    have hfirst : ∀ o, o = f (dcu_iocb s a).1 →
        o = f s ∨ ∃ n u b, visited s a n = some (u, b) ∧ Q u b o := by
      rintro o rfl
      rcases hstep s a hr with h0 | h0
      · exact Or.inl h0
      · exact Or.inr ⟨0, s, a, rfl, h0⟩
    cases hl : (dcu_iocb s a).2 with
    | next b =>
      rw [dcu_transfer_next hl] at h
      rcases ih (dcu_iocb_inRange hr a) h with hsame | ⟨n, u, c, hv, hq⟩
      · exact hfirst _ hsame
      · exact Or.inr ⟨n + 1, u, c, (visited_succ hl n).trans hv, hq⟩
    | stop ok' =>
      rw [dcu_transfer_stop hl] at h
      cases h
      exact hfirst _ rfl

/-- Where the value of an observation of the drives and memory comes from at
one event that is no store of the guest's. -/
theorem step_origin {e : Event} (hf : ∀ u v : Dcu D, v.hd = u.hd → v.mem = u.mem → f v = f u)
    (hstep : ∀ u a, InRange u → f (dcu_iocb u a).1 = f u ∨ Q u a (f (dcu_iocb u a).1))
    (hr : InRange s) (h : step fuel s e = some t) :
    f t = f s ∨ (∃ addr v, e = .store addr v ∧ t = s.putByte addr v) ∨
      ∃ u a, Visits s e u a ∧ Q u a (f t) := by
  cases e with
  | read offset =>
    cases h
    exact Or.inl rfl
  | write offset data =>
    cases h
    refine Or.inl (hf _ _ ?_ ?_) <;> · unfold dcu_w; split <;> rfl
  | store addr v =>
    cases h
    exact Or.inr (Or.inl ⟨addr, v, rfl, rfl⟩)
  | reset =>
    cases h
    exact Or.inl (hf _ _ rfl rfl)
  | expire =>
    simp only [step] at h
    split_ifs at h with htimer
    obtain ⟨⟨v, ok⟩, hv, rfl⟩ := Option.map_eq_some_iff.mp h
    have hdone : f { v with code := if ok then .done else .error, line3 := false } = f v :=
      hf v _ rfl rfl
    have hbefore : f { s with timer := false } = f s := hf s _ rfl rfl
    dsimp only
    rw [hdone]
    unfold dcu_execute at hv
    split_ifs at hv with h1 h2 h3 h4 h5
    · cases hv
      exact Or.inl (hf _ _ rfl rfl)
    · cases hv
      exact Or.inl hbefore
    · dsimp only at hv
      split_ifs at hv with hu
      · cases hv
        exact Or.inl (hf _ _ (dcu_geometry_hd _ _) (dcu_geometry_mem _ _))
      · cases hv
        exact Or.inl (hf _ _ rfl rfl)
    · cases hv
      exact Or.inl hbefore
    · rcases dcu_transfer_origin hstep (s := { s with timer := false }) hr hv with
        h0 | ⟨n, u, b, hn, hq⟩
      · exact Or.inl (h0.trans hbefore)
      · exact Or.inr (Or.inr ⟨u, b, ⟨rfl, h5, n, hn⟩, hq⟩)
    · cases hv
      exact Or.inl (hf _ _ rfl rfl)

end Observation

/-- In every run from power-on, whatever the guest puts in memory and in the
registers, a sector of a drive holds what the image held at power-on or what a
WRITE or FORMAT that names it has left there: zeros, or the page its IOCB's
table gave as memory was when the chain came to that IOCB. -/
theorem every_sector_accounted {hd : ℕ → D} {mem : Memory} {es : List Event}
    (h : run (step fuel) (powerOn hd mem) es = some t) (p : ℕ × ℕ) :
    contents t p = (HardDisk.read (hd p.1) p.2).1 ∨
      ∃ pre e post s u a b, es = pre ++ e :: post ∧
        run (step fuel) (powerOn hd mem) pre = some s ∧ Visits s e u a ∧ Stores u a p b ∧
        contents t p = some b := by
  have hinit : InRange (powerOn hd mem) := fun _ => ⟨show 0 < 256 by omega, show 0 < 32 by omega⟩
  have hone : ∀ (e : Event) (s u : Dcu D), InRange s → step fuel s e = some u →
      contents u p = contents s p ∨
        ∃ v a b, contents u p = some b ∧ Visits s e v a ∧ Stores v a p b := by
    intro e s u hr hs
    rcases step_origin (f := fun v => contents v p)
      (Q := fun v a o => ∃ b, o = some b ∧ Stores v a p b)
      (fun v w hhd _ => congrFun (contents_congr hhd) p) (fun v a hv => dcu_iocb_stores hv a p)
      hr hs with hsame | ⟨addr, v, _, rfl⟩ | ⟨v, a, hv, b, hb, hst⟩
    · exact Or.inl hsame
    · exact Or.inl rfl
    · exact Or.inr ⟨v, a, b, hb, hv, hst⟩
  rcases run_origin (f := fun v => contents v p)
    (Q := fun s e o => ∃ v a b, o = some b ∧ Visits s e v a ∧ Stores v a p b) hinit
    (fun e s u hr hs => step_inRange hr hs) hone h with
    hsame | ⟨pre, e, post, s, he, hs, v, a, b, hb, hv, hst⟩
  · exact Or.inl hsame
  · exact Or.inr ⟨pre, e, post, s, v, a, b, he, hs, hv, hst, hb⟩

/-- A page written to the first sector and what a command may have left there. -/
theorem written_sector_accounted :
    let events := [Event.write 1 1, .write 3 DCU_C_START, .expire]
    let hd : ℕ → Image := fun _ => ⟨[fun _ => 0, fun _ => 0]⟩
    let mem := oneSector DCU_C_WRITE 0 7
    ∃ t, run (step 1) (powerOn hd mem) events = some t ∧
      (contents t (0, 0) = some (fun _ => 0) ∨
        ∃ pre e post s u a b, events = pre ++ e :: post ∧
          run (step 1) (powerOn hd mem) pre = some s ∧ Visits s e u a ∧ Stores u a (0, 0) b ∧
          contents t (0, 0) = some b) := by
  obtain ⟨t, ht⟩ : ∃ t, run (step 1)
      (powerOn (fun _ => (⟨[fun _ => 0, fun _ => 0]⟩ : Image)) (oneSector DCU_C_WRITE 0 7))
      [Event.write 1 1, .write 3 DCU_C_START, .expire] = some t := ⟨_, rfl⟩
  exact ⟨t, ht, every_sector_accounted ht (0, 0)⟩

end Sys16.DcuProvenance
