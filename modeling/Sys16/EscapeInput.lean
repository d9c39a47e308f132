import Sys16.GenixTerm

/-!
# The escape key in `run_interactive`

The input loop keeps one flag across reads. What it queues and when it is left
depend on the bytes alone, not on how they are divided into reads nor on the
typing and the output in between: a pair of the escape key and `]` queues one
escape key, and the loop is left at the first `q` or `x` behind an odd number of
escape keys.
-/

namespace Sys16.EscapeInput

open PyStruct GenixTerm

variable {t u t' : Term} {b c : UInt8} {w stream rest before data : Bytes} {es : List Event}
  {e : Event}  {leave : Leave} {i n : ℕ}

/-! ## The escape code -/

/-- Each escape key as the pair that stands for it. -/
def encode (w : Bytes) : Bytes := w.flatMap fun b => if b = 0x1d then [0x1d, 0x5d] else [b]

/-- What a stream without a shutdown queues: an escape key takes the next byte
with it. -/
def decoded : Bytes → Bytes
  | [] => []
  | [b] => if b = 0x1d then [] else [b]
  | b :: c :: rest => if b = 0x1d then 0x1d :: decoded rest else b :: decoded (c :: rest)

/-- The escape keys in a row at the end of some input. -/
def trailing (before : Bytes) : ℕ := (before.reverse.takeWhile (· = 0x1d)).length

/-- How a byte leaves the loop behind an escape key. -/
def leaves (b : UInt8) : Option Leave :=
  if b = 0x71 ∨ b = 0x51 then some .sync
  else if b = 0x78 ∨ b = 0x58 then some .stop
  else none

/-- A byte of a stream that leaves the loop: it follows an escape key that is
not itself taken by one before it, the last of an odd number in a row. -/
def Quits (stream : Bytes) (i : ℕ) (leave : Leave) : Prop :=
  ∃ b, stream[i]? = some b ∧ leaves b = some leave ∧ trailing (stream.take i) % 2 = 1

/-- The first such byte. -/
def QuitsFirst (stream : Bytes) (i : ℕ) (leave : Leave) : Prop :=
  Quits stream i leave ∧ ∀ j l, j < i → ¬Quits stream j l

/-- One more escape key makes the row longer, and any other byte ends it. -/
theorem trailing_concat (before : Bytes) (b : UInt8) :
    trailing (before ++ [b]) = if b = 0x1d then trailing before + 1 else 0 := by
  unfold trailing
  rw [List.reverse_append, List.reverse_singleton, List.singleton_append, List.takeWhile_cons]
  by_cases hb : b = 0x1d
  · simp [hb]
  · simp [hb]

/-- The row is part of the input. -/
theorem trailing_le (before : Bytes) : trailing before ≤ before.length := by
  have hle : trailing before ≤ before.reverse.length := (List.takeWhile_prefix _).length_le
  rw [List.length_reverse] at hle
  exact hle

/-- A byte in front matters when the row reaches it. -/
theorem trailing_cons (b : UInt8) (rest : Bytes) : trailing (b :: rest) =
    if trailing rest = rest.length then rest.length + (if b = 0x1d then 1 else 0)
    else trailing rest := by
  unfold trailing
  rw [List.reverse_cons, List.takeWhile_append, List.length_reverse]
  split
  · rw [List.length_append, List.length_reverse]
    by_cases hb : b = 0x1d
    · simp [hb]
    · simp [hb]
  · rfl

/-- A pair before some input does not change the parity of its end. -/
theorem trailing_pair (c : UInt8) (rest : Bytes) :
    trailing (0x1d :: c :: rest) % 2 = trailing rest % 2 := by
  have hle := trailing_le rest
  have hpair := trailing_cons 0x1d (c :: rest)
  have hone := trailing_cons c rest
  rw [List.length_cons] at hpair
  by_cases hall : trailing rest = rest.length
  · rw [if_pos hall] at hone
    by_cases hc : c = 0x1d
    · rw [if_pos hc] at hone
      rw [if_pos hone, if_pos rfl] at hpair
      omega
    · rw [if_neg hc] at hone
      rw [if_neg (by omega)] at hpair
      omega
  · rw [if_neg hall] at hone
    rw [if_neg (by omega)] at hpair
    omega

/-- The next byte of a stream adds the escape key of a pair, nothing when it is
an escape key that begins one, and itself otherwise. -/
theorem decoded_concat (before : Bytes) (b : UInt8) : decoded (before ++ [b]) =
    decoded before ++ (if trailing before % 2 = 1 then [0x1d] else if b = 0x1d then [] else [b]) := by
  fun_induction decoded before with
  | case1 => simp [decoded, trailing]
  | case2 =>
    simp [decoded, trailing]
  | case3 c hc =>
    simp [decoded, trailing, hc]
  | case4 c rest ih =>
    rw [trailing_pair, List.cons_append, List.cons_append, decoded, if_pos rfl, ih, List.cons_append]
  | case5 a c rest ha ih =>
    have hsame : trailing (a :: c :: rest) = trailing (c :: rest) := by
      rw [trailing_cons, if_neg ha]
      split
      · next h => exact h.symm
      · rfl
    rw [hsame, List.cons_append, List.cons_append, decoded, if_neg ha, ← List.cons_append, ih,
      List.cons_append]

/-! ## One stream -/

/-- The loop over a read is left where a byte leaves it. -/
theorem feed_stop (h : t.byte b = (t', some leave)) (d : Bytes) :
    t.feed (b :: d) = (t', some leave) := by
  rw [Term.feed, h]

/-- Otherwise it goes on to the next byte. -/
theorem feed_next (h : t.byte b = (t', none)) (d : Bytes) : t.feed (b :: d) = t'.feed d := by
  rw [Term.feed, h]

/-- Input after a stream that has not been left in is read from there. -/
theorem feed_append (h : t.feed before = (t', none)) (d : Bytes) :
    t.feed (before ++ d) = t'.feed d := by
  induction before generalizing t with
  | nil =>
    cases h
    rfl
  | cons b before ih =>
    rw [List.cons_append]
    cases hb : t.byte b with
    | mk t₁ out =>
      cases out with
      | some leave =>
        rw [feed_stop hb] at h
        cases h
      | none =>
        rw [feed_next hb] at h
        rw [feed_next hb, ih h]

/-- Input after the loop has been left is not read. -/
theorem feed_left (h : t.feed before = (t', some leave)) (d : Bytes) :
    t.feed (before ++ d) = (t', some leave) := by
  induction before generalizing t with
  | nil => cases h
  | cons b before ih =>
    rw [List.cons_append]
    cases hb : t.byte b with
    | mk t₁ out =>
      cases out with
      | some leave =>
        rw [feed_stop hb] at h
        rw [feed_stop hb, h]
      | none =>
        rw [feed_next hb] at h
        rw [feed_next hb, ih h]

/-- The last byte is handled in the state that the others leave. -/
theorem feed_concat (h : t.feed before = (t', none)) (b : UInt8) :
    t.feed (before ++ [b]) = t'.byte b := by
  rw [feed_append h]
  cases hb : t'.byte b with
  | mk t₁ out =>
    cases out with
    | some leave => exact feed_stop hb []
    | none => exact feed_next hb []

/-- What a byte does behind an escape key. -/
theorem byte_escaped (h : t.escape = true) :
    (t.byte b).2 = leaves b ∧ (t.byte b).1.input = t.input ++ [b] ∧
      (t.byte b).1.escape = false ∧
      (t.byte b).1.typed = t.typed ++ (if leaves b = none then [0x1d] else []) := by
  unfold Term.byte leaves
  dsimp only
  rw [if_pos h]
  split
  · exact ⟨rfl, rfl, rfl, (List.append_nil _).symm⟩
  · split
    · exact ⟨rfl, rfl, rfl, (List.append_nil _).symm⟩
    · exact ⟨rfl, rfl, rfl, rfl⟩

/-- What a byte does otherwise. -/
theorem byte_plain (h : t.escape = false) :
    (t.byte b).2 = none ∧ (t.byte b).1.input = t.input ++ [b] ∧
      (t.byte b).1.escape = decide (b = 0x1d) ∧
      (t.byte b).1.typed = t.typed ++ (if b = 0x1d then [] else [b]) := by
  unfold Term.byte
  dsimp only
  rw [if_neg (by rw [h]; simp)]
  by_cases hb : b = 0x1d
  · rw [if_pos hb, if_pos hb]
    exact ⟨rfl, rfl, (decide_eq_true hb).symm, (List.append_nil _).symm⟩
  · rw [if_neg hb, if_neg hb]
    exact ⟨rfl, rfl, h.trans (decide_eq_false hb).symm, rfl⟩

/-- The input loop after a stream that it has not been left in. -/
structure Read (t t' : Term) (stream : Bytes) : Prop where
  input : t'.input = t.input ++ stream
  escape : t'.escape = decide (trailing stream % 2 = 1)
  typed : t'.typed = t.typed ++ decoded stream

/-- More input does not change how earlier input is left. -/
theorem quits_concat (h : Quits before i leave) (b : UInt8) : Quits (before ++ [b]) i leave := by
  obtain ⟨c, hc, hleave, hodd⟩ := h
  have hlt : i < before.length := (List.getElem?_eq_some_iff.mp hc).1
  refine ⟨c, ?_, hleave, ?_⟩
  · rw [List.getElem?_append_left hlt]
    exact hc
  · rw [List.take_append_of_le_length (Nat.le_of_lt hlt)]
    exact hodd

/-- A stream in which no byte leaves the loop is read to its end: the flag is
the parity of the escape keys at the end of what has been read. -/
theorem feed_reads (hesc : t.escape = false) (h : ∀ i leave, ¬Quits stream i leave) :
    ∃ t', t.feed stream = (t', none) ∧ Read t t' stream := by
  induction stream using List.reverseRecOn with
  | nil => exact ⟨t, rfl, (List.append_nil _).symm, hesc, (List.append_nil _).symm⟩
  | append_singleton before b ih =>
    obtain ⟨t', hfeed, hread⟩ := ih fun i leave hq => h i leave (quits_concat hq b)
    rw [feed_concat hfeed]
    by_cases hodd : trailing before % 2 = 1
    · have hflag : t'.escape = true := hread.escape.trans (decide_eq_true hodd)
      obtain ⟨hout, hinput, hescape, htyped⟩ := byte_escaped (b := b) hflag
      have hnone : leaves b = none := by
        cases hl : leaves b with
        | none => rfl
        | some leave =>
          refine absurd ⟨b, ?_, hl, ?_⟩ (h before.length leave)
          · rw [List.getElem?_append_right (Nat.le_refl _), Nat.sub_self]
            rfl
          · rw [List.take_left]
            exact hodd
      have heven : ¬trailing (before ++ [b]) % 2 = 1 := by
        rw [trailing_concat]
        split
        · omega
        · omega
      refine ⟨_, Prod.ext rfl (hout.trans hnone), ?_, ?_, ?_⟩
      · rw [hinput, hread.input, List.append_assoc]
      · rw [hescape, decide_eq_false heven]
      · rw [htyped, hread.typed, hnone, decoded_concat, if_pos rfl, if_pos hodd, List.append_assoc]
    · have hflag : t'.escape = false := hread.escape.trans (decide_eq_false hodd)
      obtain ⟨hout, hinput, hescape, htyped⟩ := byte_plain (b := b) hflag
      have hiff : trailing (before ++ [b]) % 2 = 1 ↔ b = 0x1d := by
        rw [trailing_concat]
        split
        · next hb => simp only [hb, iff_true]; omega
        · next hb => simp [hb]
      refine ⟨_, Prod.ext rfl hout, ?_, ?_, ?_⟩
      · rw [hinput, hread.input, List.append_assoc]
      · rw [hescape, decide_eq_decide.mpr hiff]
      · rw [htyped, hread.typed, decoded_concat, if_neg hodd, List.append_assoc]

/-- The loop is left at the first byte that leaves it, with nothing of it or
after it queued. -/
theorem feed_quits (hesc : t.escape = false) (h : QuitsFirst stream i leave) :
    (t.feed stream).2 = some leave ∧
      (t.feed stream).1.input = t.input ++ stream.take (i + 1) ∧
      (t.feed stream).1.typed = t.typed ++ decoded (stream.take i) := by
  obtain ⟨⟨b, hb, hleave, hodd⟩, hfirst⟩ := h
  obtain ⟨hlt, hget⟩ := List.getElem?_eq_some_iff.mp hb
  have hbefore : ∀ j l, ¬Quits (stream.take i) j l := by
    rintro j l ⟨c, hc, hl, hj⟩
    have hji : j < i := by
      have hlen := (List.getElem?_eq_some_iff.mp hc).1
      rw [List.length_take] at hlen
      omega
    refine hfirst j l hji ⟨c, ?_, hl, ?_⟩
    · rw [List.getElem?_take_of_lt hji] at hc
      exact hc
    · rw [List.take_take, Nat.min_eq_left (Nat.le_of_lt hji)] at hj
      exact hj
  obtain ⟨t', hfeed, hread⟩ := feed_reads hesc hbefore
  have hflag : t'.escape = true := hread.escape.trans (decide_eq_true hodd)
  obtain ⟨hout, hinput, _, htyped⟩ := byte_escaped (b := b) hflag
  have htake : stream.take i ++ [b] = stream.take (i + 1) := by
    rw [← hget]
    exact List.take_append_getElem hlt
  have hrun : t.feed (stream.take (i + 1)) = ((t'.byte b).1, some leave) := by
    rw [← htake, feed_concat hfeed]
    exact Prod.ext rfl (hout.trans hleave)
  have hall : t.feed stream = ((t'.byte b).1, some leave) := by
    rw [← List.take_append_drop (i + 1) stream]
    exact feed_left hrun _
  rw [hall]
  refine ⟨rfl, ?_, ?_⟩
  · rw [hinput, hread.input, List.append_assoc, htake]
  · rw [htyped, hread.typed, hleave, if_neg nofun, List.append_nil]

/-! ## The escape code of a string -/

/-- The code of a string is the code of its bytes. -/
theorem encode_cons (b : UInt8) (w : Bytes) :
    encode (b :: w) = (if b = 0x1d then [0x1d, 0x5d] else [b]) ++ encode w := rfl

/-- The code of a string is read to its end and queues the string. -/
theorem feed_encode (hesc : t.escape = false) (w : Bytes) :
    ∃ t', t.feed (encode w) = (t', none) ∧ t'.escape = false ∧ t'.typed = t.typed ++ w := by
  induction w generalizing t with
  | nil => exact ⟨t, rfl, hesc, (List.append_nil _).symm⟩
  | cons b w ih =>
    obtain ⟨hout, _, hescape, htyped⟩ := byte_plain (b := b) hesc
    rw [encode_cons]
    by_cases hb : b = 0x1d
    · -- the pair: the first byte sets the flag, and the second queues the key
      rw [if_pos hb, List.cons_append, List.cons_append, List.nil_append]
      subst hb
      obtain ⟨hout', _, hescape', htyped'⟩ := byte_escaped (b := 0x5d) hescape
      obtain ⟨t', hfeed, he, ht⟩ := ih hescape'
      refine ⟨t', ?_, he, ?_⟩
      · rw [feed_next (Prod.ext rfl hout), feed_next (Prod.ext rfl hout'), hfeed]
      · rw [ht, htyped', htyped, if_pos rfl, List.append_nil, List.append_assoc]
        rfl
    · rw [if_neg hb, List.singleton_append]
      obtain ⟨t', hfeed, he, ht⟩ := ih (hescape.trans (decide_eq_false hb))
      refine ⟨t', ?_, he, ?_⟩
      · rw [feed_next (Prod.ext rfl hout), hfeed]
      · rw [ht, htyped, if_neg hb, List.append_assoc]
        rfl

/-! ## Any division into reads -/

/-- What the terminal sends, up to an empty read. -/
def inputs : List Event → Bytes
  | [] => []
  | .pump _ :: es => inputs es
  | .read data :: es => if data = [] then [] else data ++ inputs es
  | .console data :: es => if data = [] then [] else inputs es

/-- The terminal or the console is closed: a read comes back empty. -/
def closed : List Event → Bool
  | [] => false
  | .pump _ :: es => closed es
  | .read data :: es => decide (data = []) || closed es
  | .console data :: es => decide (data = []) || closed es

/-- Two states of the loop that handle input alike and have handled the same. -/
structure Same (t u : Term) : Prop where
  escape : t.escape = u.escape
  input : t.input = u.input
  typed : t.typed = u.typed

/-- A byte is handled alike whatever the machine has queued or shown. -/
theorem byte_same (h : Same t u) (b : UInt8) :
    (t.byte b).2 = (u.byte b).2 ∧ Same (t.byte b).1 (u.byte b).1 := by
  cases hesc : u.escape with
  | true =>
    obtain ⟨hout, hinput, hescape, htyped⟩ := byte_escaped (b := b) (h.escape.trans hesc)
    obtain ⟨hout', hinput', hescape', htyped'⟩ := byte_escaped (b := b) hesc
    refine ⟨hout.trans hout'.symm, hescape.trans hescape'.symm, ?_, ?_⟩
    · rw [hinput, hinput', h.input]
    · rw [htyped, htyped', h.typed]
  | false =>
    obtain ⟨hout, hinput, hescape, htyped⟩ := byte_plain (b := b) (h.escape.trans hesc)
    obtain ⟨hout', hinput', hescape', htyped'⟩ := byte_plain (b := b) hesc
    refine ⟨hout.trans hout'.symm, hescape.trans hescape'.symm, ?_, ?_⟩
    · rw [hinput, hinput', h.input]
    · rw [htyped, htyped', h.typed]

/-- So is a read. -/
theorem feed_same (h : Same t u) (stream : Bytes) :
    (t.feed stream).2 = (u.feed stream).2 ∧ Same (t.feed stream).1 (u.feed stream).1 := by
  induction stream generalizing t u with
  | nil => exact ⟨rfl, h⟩
  | cons b stream ih =>
    obtain ⟨hout, hsame⟩ := byte_same h b
    cases hb : u.byte b with
    | mk u₁ out =>
      rw [hb] at hout hsame
      have ht : t.byte b = ((t.byte b).1, out) := Prod.ext rfl hout
      cases out with
      | some leave =>
        rw [feed_stop hb, feed_stop ht]
        exact ⟨rfl, hsame⟩
      | none =>
        rw [feed_next hb, feed_next ht]
        exact ih hsame

/-- The session is left at the event that leaves it. -/
theorem run_stop [Seconds] (h : t.step e = (t', some leave)) (es : List Event) :
    t.run (e :: es) = (t', some leave) := by
  rw [Term.run, h]

/-- Otherwise it goes on to the next event. -/
theorem run_next [Seconds] (h : t.step e = (t', none)) (es : List Event) :
    t.run (e :: es) = t'.run es := by
  rw [Term.run, h]

/-- Events handle the input as one stream; where it does not leave the loop, a
closed terminal or console does. -/
theorem run_same [Seconds] (h : Same t u) (es : List Event) :
    (t.run es).2 = (u.feed (inputs es)).2.or (if closed es then some .interrupt else none) ∧
      Same (t.run es).1 (u.feed (inputs es)).1 := by
  induction es generalizing t u with
  | nil => exact ⟨rfl, h⟩
  | cons e es ih =>
    cases e with
    | pump now =>
      rw [run_next (e := .pump now) rfl]
      exact ih ⟨h.escape, h.input, h.typed⟩
    | console data =>
      by_cases hd : data = []
      · subst hd
        exact ⟨rfl, h⟩
      · have hstep : t.step (.console data) = ({ t with machine := t.machine.note data }, none) :=
          if_neg hd
        rw [run_next hstep, inputs, closed, if_neg hd, decide_eq_false hd, Bool.false_or]
        exact ih ⟨h.escape, h.input, h.typed⟩
    | read data =>
      by_cases hd : data = []
      · subst hd
        exact ⟨rfl, h⟩
      · have hstep : t.step (.read data) = t.feed data := if_neg hd
        obtain ⟨hout, hsame⟩ := feed_same h data
        rw [inputs, closed, if_neg hd, decide_eq_false hd, Bool.false_or]
        cases hu : u.feed data with
        | mk u₁ out =>
          rw [hu] at hout hsame
          have ht : t.feed data = ((t.feed data).1, out) := Prod.ext rfl hout
          cases out with
          | some leave =>
            rw [run_stop (hstep.trans ht), feed_left hu]
            exact ⟨rfl, hsame⟩
          | none =>
            rw [run_next (hstep.trans ht), feed_append hu]
            exact ih hsame

/-! ## The typing queue -/

/-- What the loop has queued since a state, in order, stands behind what was to
be sent; where the monitor's prompt has come up meanwhile, the boot command
stands in one place of it. -/
structure Queued (t t' : Term) : Prop where
  booted : t.machine.booted = true → t'.machine.booted = true
  queue : ∃ u v, t'.typed = t.typed ++ (u ++ v) ∧
    t'.sent ++ t'.machine.pending = t.sent ++ t.machine.pending ++
      (u ++ (if t'.machine.booted = t.machine.booted then [] else bytes "k\r") ++ v)

/-- Nothing has been queued yet. -/
theorem Queued.refl (t : Term) : Queued t t := by
  refine ⟨id, [], [], (List.append_nil _).symm, ?_⟩
  rw [if_pos rfl]
  exact (List.append_nil _).symm

/-- Input that is queued. -/
theorem Queued.append (h : Queued t t') (b : UInt8) : Queued t (t'.append b) := by
  obtain ⟨hbooted, u, v, htyped, hqueue⟩ := h
  refine ⟨hbooted, u, v ++ [b], ?_, ?_⟩
  · change t'.typed ++ [b] = _
    rw [htyped]
    simp only [List.append_assoc]
  · change t'.sent ++ (t'.machine.pending ++ [b]) = t.sent ++ t.machine.pending ++
      (u ++ (if t'.machine.booted = t.machine.booted then _ else _) ++ _)
    rw [← List.append_assoc, hqueue]
    simp only [List.append_assoc]

/-- A byte queues itself, an escape key, or nothing. -/
theorem Queued.byte (h : Queued t t') (b : UInt8) : Queued t (t'.byte b).1 := by
  have hread (escape) : Queued t { t' with input := t'.input ++ [b], escape := escape } :=
    ⟨h.booted, h.queue⟩
  unfold Term.byte
  dsimp only
  split
  · split
    · exact hread false
    · split
      · exact hread false
      · exact (hread false).append 0x1d
  · split
    · exact hread true
    · exact (hread t'.escape).append b

/-- A read queues its bytes in order. -/
theorem Queued.feed (h : Queued t t') (stream : Bytes) : Queued t (t'.feed stream).1 := by
  induction stream generalizing t' with
  | nil => exact h
  | cons b stream ih =>
    have hnext := h.byte b
    cases hb : t'.byte b with
    | mk t₁ out =>
      rw [hb] at hnext
      cases out with
      | some leave =>
        rw [feed_stop hb]
        exact hnext
      | none =>
        rw [feed_next hb]
        exact ih hnext

/-- A byte handed to `send` leaves the queue for what has been sent. -/
theorem Queued.pump [Seconds] (h : Queued t t') (now : ℚ) :
    Queued t (t'.step (.pump now)).1 := by
  have hkeep : (t'.machine.pump_keys now).1.booted = t'.machine.booted ∧
      t'.sent ++ (t'.machine.pump_keys now).2.toList ++ (t'.machine.pump_keys now).1.pending =
        t'.sent ++ t'.machine.pending := by
    unfold Machine.pump_keys
    split
    · next hp =>
      rw [hp]
      exact ⟨rfl, by simp⟩
    · next ch rest hp =>
      split
      · rw [hp]
        exact ⟨rfl, by simp⟩
      · exact ⟨rfl, by simp⟩
  obtain ⟨hbooted, u, v, htyped, hqueue⟩ := h
  obtain ⟨hsame, hmoved⟩ := hkeep
  unfold Term.step
  dsimp only
  refine ⟨fun hb => ?_, u, v, htyped, ?_⟩
  · exact hsame.trans (hbooted hb)
  · dsimp only
    rw [hmoved, hsame, hqueue]

/-- The output moves the window, and at most once adds the boot command. -/
theorem note_cases (m : Machine) (data : Bytes) : ∃ seen,
    m.note data = { m with seen := seen } ∨ m.booted = false ∧
      m.note data = { m with seen := seen, booted := true, pending := m.pending ++ bytes "k\r" } := by
  unfold Machine.note Machine.type
  generalize window (m.seen ++ data) = seen
  refine ⟨seen, ?_⟩
  by_cases hprompt : m.booted = false ∧ m.monitor = false ∧ occurs MONITOR seen = true ∧
      m.pending = []
  · exact Or.inr ⟨hprompt.1, if_pos hprompt⟩
  · exact Or.inl (if_neg hprompt)

/-- Output queues the boot command at most, where the queue is then. -/
theorem Queued.note (h : Queued t t') (data : Bytes) :
    Queued t { t' with machine := t'.machine.note data } := by
  obtain ⟨hbooted, u, v, htyped, hqueue⟩ := h
  obtain ⟨seen, hnote | ⟨hnew, hnote⟩⟩ := note_cases t'.machine data
  · rw [hnote]
    exact ⟨hbooted, u, v, htyped, hqueue⟩
  · have hnot : t.machine.booted = false := by
      cases hb : t.machine.booted with
      | false => rfl
      | true => exact absurd (hbooted hb) (by rw [hnew]; simp)
    rw [hnew, hnot, if_pos rfl, List.append_nil] at hqueue
    rw [hnote]
    refine ⟨fun _ => rfl, u ++ v, [], ?_, ?_⟩
    · rw [List.append_nil]
      exact htyped
    · dsimp only
      rw [hnot, if_neg (by simp), List.append_nil, ← List.append_assoc, hqueue, List.append_assoc]

/-- An event queues one or the other. -/
theorem Queued.step [Seconds] (h : Queued t t') (e : Event) : Queued t (t'.step e).1 := by
  cases e with
  | pump now => exact h.pump now
  | read data =>
    unfold Term.step
    dsimp only
    split
    · exact h
    · exact h.feed data
  | console data =>
    unfold Term.step
    dsimp only
    split
    · exact h
    · exact h.note data

/-- So does a run of events. -/
theorem Queued.run [Seconds] (h : Queued t t') (es : List Event) : Queued t (t'.run es).1 := by
  induction es generalizing t' with
  | nil => exact h
  | cons e es ih =>
    have hnext := h.step e
    cases he : t'.step e with
    | mk t₁ out =>
      rw [he] at hnext
      cases out with
      | some leave =>
        rw [run_stop he]
        exact hnext
      | none =>
        rw [run_next he]
        exact ih hnext

/-! ## The loop -/

/-- However the input is divided into reads, and whatever is typed and comes in
between: the escape code of a string queues that string and leaves the loop
running; and any input is handled up to the first byte that leaves the loop,
with what came before it queued and nothing after it, or else to its end. -/
theorem escape_input [Seconds] :
    (∀ t es w, t.escape = false → inputs es = encode w →
      (t.run es).2 = (if closed es then some .interrupt else none) ∧
      (t.run es).1.escape = false ∧ (t.run es).1.typed = t.typed ++ w ∧
      Queued t (t.run es).1) ∧
    ∀ t es, t.escape = false → Queued t (t.run es).1 ∧
      (∀ i leave, QuitsFirst (inputs es) i leave →
        (t.run es).2 = some leave ∧
        (t.run es).1.input = t.input ++ (inputs es).take (i + 1) ∧
        (t.run es).1.typed = t.typed ++ decoded ((inputs es).take i)) ∧
      ((∀ i leave, ¬Quits (inputs es) i leave) →
        (t.run es).2 = (if closed es then some .interrupt else none) ∧
        (t.run es).1.input = t.input ++ inputs es ∧
        (t.run es).1.typed = t.typed ++ decoded (inputs es)) := by
  refine ⟨fun t es w hesc hw => ?_, fun t es hesc => ⟨(Queued.refl t).run es, ?_, ?_⟩⟩
  · obtain ⟨hout, hsame⟩ := run_same (Same.mk rfl rfl rfl : Same t t) es
    obtain ⟨t', hfeed, hescape, htyped⟩ := feed_encode hesc w
    rw [hw, hfeed] at hout hsame
    exact ⟨hout, hsame.escape.trans hescape, hsame.typed.trans htyped, (Queued.refl t).run es⟩
  · intro i leave hquits
    obtain ⟨hout, hsame⟩ := run_same (Same.mk rfl rfl rfl : Same t t) es
    obtain ⟨hleave, hinput, htyped⟩ := feed_quits hesc hquits
    rw [hleave] at hout
    exact ⟨hout, hsame.input.trans hinput, hsame.typed.trans htyped⟩
  · intro hnone
    obtain ⟨hout, hsame⟩ := run_same (Same.mk rfl rfl rfl : Same t t) es
    obtain ⟨t', hfeed, hread⟩ := feed_reads hesc hnone
    rw [hfeed] at hout hsame
    exact ⟨hout, hsame.input.trans hread.input, hsame.typed.trans hread.typed⟩

open ExactSeconds

/-- A pair divided between two reads, and three escape keys before `q`. -/
theorem escape_input_pairs :
    ((Term.run ⟨Machine.init false, false, [], [], []⟩
        [.read [0x1d], .pump 1, .read [0x5d, 0x61], .console [0x0d]]).1.typed = [0x1d, 0x61]) ∧
    (Term.run ⟨Machine.init false, false, [], [], []⟩
        [.read [0x1d, 0x1d], .pump 1, .read [0x1d], .read [0x71, 0x62]]).2 = some .sync ∧
    (Term.run ⟨Machine.init false, false, [], [], []⟩
        [.read [0x1d, 0x1d], .pump 1, .read [0x1d], .read [0x71, 0x62]]).1.typed = [0x1d] := by
  have hpairs := escape_input.1 ⟨Machine.init false, false, [], [], []⟩
    [.read [0x1d], .pump 1, .read [0x5d, 0x61], .console [0x0d]] [0x1d, 0x61] rfl (by decide)
  have hfirst : QuitsFirst (inputs [.read [0x1d, 0x1d], .pump 1, .read [0x1d], .read [0x71, 0x62]])
      3 .sync := by
    refine ⟨⟨0x71, by decide, by decide, by decide⟩, ?_⟩
    rintro j l hj ⟨b, hb, hl, -⟩
    have hkey : b = 0x1d := by
      have hall : ∀ j < 3, (inputs [.read [0x1d, 0x1d], .pump 1, .read [0x1d],
          .read [0x71, 0x62]])[j]? = some 0x1d := by decide
      exact (Option.some.inj ((hall j hj).symm.trans hb)).symm
    subst hkey
    exact absurd hl (by decide +revert)
  have hquit := (escape_input.2 ⟨Machine.init false, false, [], [], []⟩
    [.read [0x1d, 0x1d], .pump 1, .read [0x1d], .read [0x71, 0x62]] rfl).2.1 3 .sync hfirst
  exact ⟨hpairs.2.2.1, hquit.1, hquit.2.2⟩

end Sys16.EscapeInput
