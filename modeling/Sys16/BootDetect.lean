import Sys16.GenixTerm

/-!
# Markers in a divided stream

`note` searches the last 4096 bytes of the console output, cut after a chunk has
been added. A marker that begins in an earlier chunk is cut when the chunk that
completes it leaves no room for its beginning; otherwise a marker is seen at
the chunk that completes it, and the boot command is queued at the first
monitor prompt.
-/

namespace Sys16.BootDetect

open PyStruct GenixTerm

variable {chunks pre : List Bytes} {c before seen marker x y : Bytes} {m : Machine}

/-! ## The window -/

/-- `occurs` decides whether the marker stands in what has been seen. -/
theorem occurs_iff : occurs marker seen = true ↔ marker <:+: seen := by
  induction seen with
  | nil =>
    unfold occurs
    rw [List.isEmpty_iff, List.infix_nil]
  | cons b seen ih =>
    unfold occurs
    rw [Bool.or_eq_true, List.isPrefixOf_iff_prefix, ih, List.infix_cons_iff]

/-- The window of a stream is that of its last chunk after the window before. -/
theorem window_append (seen data : Bytes) : window (window seen ++ data) = window (seen ++ data) := by
  have hcut : seen.length - 4096 ≤ seen.length := Nat.sub_le _ _
  have hlen : (window seen).length = min seen.length 4096 := by
    unfold window
    rw [List.length_drop]
    omega
  have hsplit : window seen ++ data = (seen ++ data).drop (seen.length - 4096) := by
    rw [List.drop_append_of_le_length hcut]
    rfl
  have hdrop : window (window seen ++ data) =
      ((seen ++ data).drop (seen.length - 4096)).drop
        ((window seen ++ data).length - 4096) := by
    rw [← hsplit]
    rfl
  have hcount : seen.length - 4096 + ((window seen ++ data).length - 4096) =
      (seen ++ data).length - 4096 := by
    rw [List.length_append, List.length_append, hlen]
    omega
  rw [hdrop, List.drop_drop, hcount]
  rfl

/-- An occurrence is in the window when it begins there. -/
theorem infix_window (hsplit : seen = x ++ marker ++ y) (h : seen.length ≤ 4096 + x.length) :
    marker <:+: window seen := by
  refine ⟨x.drop (seen.length - 4096), y, ?_⟩
  unfold window
  conv_rhs => rw [hsplit, List.append_assoc]
  rw [List.drop_append_of_le_length (by rw [← List.append_assoc, ← hsplit]; omega),
    ← List.append_assoc, ← List.append_assoc, hsplit]

/-- An occurrence in the window begins there. -/
theorem split_of_window (h : marker <:+: window seen) :
    ∃ x y, seen = x ++ marker ++ y ∧ seen.length ≤ 4096 + x.length := by
  obtain ⟨x, y, hxy⟩ := h
  refine ⟨seen.take (seen.length - 4096) ++ x, y, ?_, ?_⟩
  · have hall := List.take_append_drop (seen.length - 4096) seen
    rw [List.append_assoc, List.append_assoc, ← List.append_assoc x, hxy]
    exact hall.symm
  · rw [List.length_append, List.length_take]
    omega

/-! ## Chunks that complete a marker -/

/-- A chunk completes an occurrence of a marker: the occurrence ends in it. -/
def Completes (marker before c : Bytes) : Prop :=
  ∃ x y, before ++ c = x ++ marker ++ y ∧ y.length < c.length

/-- A chunk completes an occurrence of a marker, and together with the bytes of
the occurrence that came before it the chunk is no longer than the window. -/
def Caught (marker before c : Bytes) : Prop :=
  ∃ x y, before ++ c = x ++ marker ++ y ∧ y.length < c.length ∧
    c.length + (before.length - x.length) ≤ 4096

/-- A marker that is caught stands in the window of its moment. -/
theorem window_of_caught (h : Caught marker before c) :
    marker <:+: window (before ++ c) := by
  obtain ⟨x, y, hsplit, _, hfit⟩ := h
  refine infix_window hsplit ?_
  rw [List.length_append]
  omega

/-- When a marker is in the window after a chunk that completes an occurrence
of it, the last occurrence it completes begins in the window: one that ends
before the chunk begins earlier still. -/
theorem caught_of_window (hc : c.length ≤ 4096) (h : marker <:+: window (before ++ c))
    (hcomp : Completes marker before c) : Caught marker before c := by
  obtain ⟨x, y, hsplit, hbegin⟩ := split_of_window h
  obtain ⟨x', y', hsplit', hends⟩ := hcomp
  have hlen := congrArg List.length hsplit
  have hlen' := congrArg List.length hsplit'
  simp only [List.length_append] at hlen hlen' hbegin
  by_cases hy : y.length < c.length
  · exact ⟨x, y, hsplit, hy, by omega⟩
  · exact ⟨x', y', hsplit', hends, by omega⟩

/-- A new occurrence ends in the chunk. -/
theorem completes_of_new (h : marker <:+: before ++ c) (hnew : ¬marker <:+: before) :
    Completes marker before c := by
  obtain ⟨x, y, hsplit⟩ := h
  refine ⟨x, y, hsplit.symm, ?_⟩
  by_contra hlong
  have hcut : y.take (y.length - c.length) ++ y.drop (y.length - c.length) = y :=
    List.take_append_drop _ y
  rw [← hcut, ← List.append_assoc] at hsplit
  have htail : (y.drop (y.length - c.length)).length = c.length := by
    rw [List.length_drop]
    omega
  exact hnew ⟨x, y.take (y.length - c.length), (List.append_inj' hsplit htail).1⟩

/-! ## A stream in chunks -/

/-- `note` over the chunks of a stream, with `--monitor` off and nothing queued. -/
def feed (chunks : List Bytes) : Machine := chunks.foldl Machine.note (Machine.init false)

theorem feed_concat (pre : List Bytes) (c : Bytes) : feed (pre ++ [c]) = (feed pre).note c := by
  unfold feed
  rw [List.foldl_append]
  rfl

/-- `note` when it queues the boot command. -/
theorem note_boots (hboot : m.booted = false) (hmonitor : m.monitor = false)
    (hpending : m.pending = []) (hfound : occurs MONITOR (window (m.seen ++ c)) = true) :
    m.note c =
      { m with seen := window (m.seen ++ c), booted := true, pending := bytes "k\r" } := by
  unfold Machine.note Machine.type
  generalize window (m.seen ++ c) = w at hfound ⊢
  dsimp only
  rw [if_pos ⟨hboot, hmonitor, hfound, hpending⟩, hpending, List.nil_append]

/-- `note` otherwise. -/
theorem note_keeps (h : ¬(m.booted = false ∧ m.monitor = false ∧
    occurs MONITOR (window (m.seen ++ c)) = true ∧ m.pending = [])) :
    m.note c = { m with seen := window (m.seen ++ c) } := by
  unfold Machine.note
  generalize window (m.seen ++ c) = w at h ⊢
  dsimp only
  rw [if_neg h]

/-- A machine that has been fed a stream: its window, and a queue with the boot
command when it has booted. -/
structure Fed (m : Machine) (stream : Bytes) : Prop where
  monitor : m.monitor = false
  seen : m.seen = window stream
  pending : m.pending = if m.booted then bytes "k\r" else []

theorem Fed.window_next (h : Fed m before) (c : Bytes) :
    window (m.seen ++ c) = window (before ++ c) := by
  rw [h.seen, window_append]

/-- A chunk for a machine that has not booted. -/
theorem Fed.note_first (h : Fed m before) (hboot : m.booted = false) :
    Fed (m.note c) (before ++ c) ∧
      ((m.note c).booted = true ↔ MONITOR <:+: window (before ++ c)) := by
  have hpending : m.pending = [] := by
    rw [h.pending, hboot, if_neg (by simp)]
  have hocc : occurs MONITOR (window (before ++ c)) = true ↔ MONITOR <:+: window (before ++ c) :=
    occurs_iff
  rw [← hocc, ← h.window_next c]
  cases hfound : occurs MONITOR (window (m.seen ++ c)) with
  | true =>
    rw [note_boots hboot h.monitor hpending hfound]
    refine ⟨⟨h.monitor, ?_, (if_pos rfl).symm⟩, fun _ => rfl, fun _ => rfl⟩
    dsimp only
    rw [h.window_next]
  | false =>
    rw [note_keeps fun hall => by rw [hfound] at hall; exact absurd hall.2.2.1 (by simp)]
    refine ⟨⟨h.monitor, ?_, h.pending⟩, fun hb => ?_, nofun⟩
    · dsimp only
      rw [h.window_next]
    · exact absurd (hboot.symm.trans hb) (by simp)

/-- A chunk for a machine that has booted: nothing more is queued. -/
theorem Fed.note_booted (h : Fed m before) (hboot : m.booted = true) :
    Fed (m.note c) (before ++ c) ∧ (m.note c).booted = true := by
  rw [note_keeps fun hall => by rw [hboot] at hall; exact absurd hall.1 (by simp)]
  refine ⟨⟨h.monitor, ?_, h.pending⟩, hboot⟩
  dsimp only
  rw [h.window_next]

/-- Whatever the chunks, what has been seen is the window of what they make together. -/
theorem feed_fed (chunks : List Bytes) : Fed (feed chunks) chunks.flatten := by
  induction chunks using List.reverseRecOn with
  | nil => exact ⟨rfl, List.drop_nil.symm, rfl⟩
  | append_singleton pre c ih =>
    rw [feed_concat, List.flatten_append, List.flatten_singleton]
    cases hboot : (feed pre).booted with
    | false => exact (ih.note_first hboot).1
    | true => exact (ih.note_booted hboot).1

/-- What a chunk adds to whether the machine has booted. -/
theorem feed_booted (pre : List Bytes) (c : Bytes) : (feed (pre ++ [c])).booted = true ↔
    (feed pre).booted = true ∨ MONITOR <:+: window (pre.flatten ++ c) := by
  rw [feed_concat]
  cases hboot : (feed pre).booted with
  | false => simp [((feed_fed pre).note_first hboot).2]
  | true => simp [((feed_fed pre).note_booted hboot).2]

/-- After a chunk a marker is seen exactly when it stands in the window. -/
theorem feed_saw (pre : List Bytes) (c : Bytes) :
    (feed (pre ++ [c])).saw marker = true ↔ marker <:+: window (pre.flatten ++ c) := by
  have hseen := (feed_fed (pre ++ [c])).seen
  rw [List.flatten_append, List.flatten_singleton] at hseen
  unfold Machine.saw
  rw [hseen, occurs_iff]

/-! ## Detection -/

/-- The boot command is in the queue once from the chunk on that completes the
first monitor prompt, and never before it; and a banner or a shell prompt is
seen at each chunk that completes one. -/
structure Detects (chunks : List Bytes) : Prop where
  boots : ∀ pre, pre <+: chunks → (feed pre).pending =
    if MONITOR <:+: pre.flatten then bytes "k\r" else []
  saw : ∀ marker, marker = BANNER ∨ marker = PROMPT → ∀ pre c, pre ++ [c] <+: chunks →
    Completes marker pre.flatten c → (feed (pre ++ [c])).saw marker = true

/-- The chunk that completes the first monitor prompt catches one, and so does
each chunk that completes a banner or a shell prompt. -/
structure Catches (chunks : List Bytes) : Prop where
  first : ∀ pre c, pre ++ [c] <+: chunks → ¬MONITOR <:+: pre.flatten →
    Completes MONITOR pre.flatten c → Caught MONITOR pre.flatten c
  each : ∀ marker, marker = BANNER ∨ marker = PROMPT → ∀ pre c, pre ++ [c] <+: chunks →
    Completes marker pre.flatten c → Caught marker pre.flatten c

/-- The boot command is queued exactly when the monitor's prompt has come, just when
`booted` says so. -/
theorem feed_pending_iff (chunks : List Bytes) :
    ((feed chunks).pending = if MONITOR <:+: chunks.flatten then bytes "k\r" else []) ↔
      ((feed chunks).booted = true ↔ MONITOR <:+: chunks.flatten) := by
  have hne : bytes "k\r" ≠ [] := by decide
  rw [(feed_fed chunks).pending]
  cases (feed chunks).booted with
  | false =>
    by_cases h : MONITOR <:+: chunks.flatten
    · simp [h, hne.symm]
    · simp [h]
  | true =>
    by_cases h : MONITOR <:+: chunks.flatten
    · simp [h]
    · simp [h, hne]

/-- A monitor prompt that is not caught at its first completion is not noticed. -/
theorem caught_of_detects (hsize : ∀ c ∈ chunks, c.length ≤ 4096) (h : Detects chunks) :
    Catches chunks := by
  have hmem : ∀ (pre : List Bytes) (c : Bytes), pre ++ [c] <+: chunks → c.length ≤ 4096 :=
    fun pre c hp => hsize c (hp.subset (by simp))
  refine ⟨fun pre c hp hnew hcomp => ?_, fun marker hm pre c hp hcomp => ?_⟩
  · have hbefore := (feed_pending_iff pre).mp (h.boots pre ((List.prefix_append pre [c]).trans hp))
    have hafter := (feed_pending_iff (pre ++ [c])).mp (h.boots (pre ++ [c]) hp)
    have hin : MONITOR <:+: (pre ++ [c]).flatten := by
      obtain ⟨x, y, hsplit, _⟩ := hcomp
      rw [List.flatten_append, List.flatten_singleton, hsplit]
      exact List.infix_append x MONITOR y
    rcases (feed_booted pre c).mp (hafter.mpr hin) with hold | hseen
    · exact absurd (hbefore.mp hold) hnew
    · exact caught_of_window (hmem pre c hp) hseen hcomp
  · have hseen := (feed_saw pre c).mp (h.saw marker hm pre c hp hcomp)
    exact caught_of_window (hmem pre c hp) hseen hcomp

/-- The induction over the chunks: after each of them the machine has booted
exactly when the stream so far has a monitor prompt. -/
theorem detects_of_catches (h : Catches chunks) : Detects chunks := by
  refine ⟨fun pre hp => (feed_pending_iff pre).mpr ?_, fun marker hm pre c hp hcomp => ?_⟩
  · induction pre using List.reverseRecOn with
    | nil => exact ⟨nofun, fun hin => absurd hin (by decide)⟩
    | append_singleton pre c ih =>
      have hpre := ih ((List.prefix_append pre [c]).trans hp)
      rw [feed_booted, hpre, List.flatten_append, List.flatten_singleton]
      constructor
      · rintro (hold | hseen)
        · exact hold.trans (List.prefix_append _ _).isInfix
        · exact hseen.trans (List.drop_suffix _ _).isInfix
      · intro hin
        by_cases hold : MONITOR <:+: pre.flatten
        · exact Or.inl hold
        · exact Or.inr (window_of_caught (h.first pre c hp hold (completes_of_new hin hold)))
  · exact (feed_saw pre c).mpr (window_of_caught (h.each marker hm pre c hp hcomp))

/-- For every division of a stream into chunks of at most 4096 bytes, the
markers are detected as they are completed exactly when each chunk that
completes one, for the monitor prompt the first, is together with the bytes
that one of its occurrences had before it no longer than the window. -/
theorem detects_iff (hdiv : ∀ c ∈ chunks, c ≠ [] ∧ c.length ≤ 4096) :
    Detects chunks ↔ Catches chunks :=
  ⟨caught_of_detects fun c hc => (hdiv c hc).2, detects_of_catches⟩

/-- A stream no longer than the window has its markers caught however it comes. -/
theorem catches_short (h : chunks.flatten.length ≤ 4096) : Catches chunks := by
  have hcaught : ∀ (marker : Bytes) (pre : List Bytes) (c : Bytes), pre ++ [c] <+: chunks →
      Completes marker pre.flatten c → Caught marker pre.flatten c := by
    intro marker pre c hp ⟨x, y, hsplit, hends⟩
    obtain ⟨post, rfl⟩ := hp
    rw [List.flatten_append, List.flatten_append, List.flatten_singleton, List.length_append,
      List.length_append] at h
    exact ⟨x, y, hsplit, hends, by omega⟩
  exact ⟨fun pre c hp _ hcomp => hcaught MONITOR pre c hp hcomp,
    fun marker _ pre c hp hcomp => hcaught marker pre c hp hcomp⟩

/-- A prompt in two short chunks. -/
theorem detects_two_chunks : Detects [[0x0d], [0x2a]] :=
  (detects_iff (by decide)).mpr (catches_short (by decide))

/-- A prompt whose second byte begins a chunk of 4096 bytes: its first byte has
been cut when the window is searched. -/
theorem misses_full_chunk : ¬Detects [[0x0d], 0x2a :: List.replicate 4095 0] := by
  intro h
  have hboots := h.boots _ (List.prefix_refl _)
  have hin : ∀ rest : Bytes, MONITOR <:+: ([[0x0d], 0x2a :: rest] : List Bytes).flatten := by
    intro rest
    have hmonitor : MONITOR = [0x0d, 0x2a] := by decide
    rw [hmonitor]
    exact ⟨[], rest, by simp⟩
  rw [if_pos (hin _)] at hboots
  have hnone : (feed [[0x0d], 0x2a :: List.replicate 4095 0]).pending = [] := by decide +kernel
  rw [hnone] at hboots
  exact absurd hboots (by decide)

end Sys16.BootDetect
