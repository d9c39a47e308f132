import Mathlib.Data.Int.Bitwise
import Mathlib.Data.List.Forall2
import Mathlib.Tactic.Common

/-!
# Strings and numbers of the Python tools

The string operations that `tools/mkfs.py` applies to paths and spec lines,
over strings as lists of code points: a file name that does not decode holds
lone surrogates, which are code points and not characters. Numbers follow the
documented grammar of `int`, digits of every script included.
-/

namespace Sys16.PyText

/-- A Python string, by its code points. -/
abbrev Str := List ℕ

/-- A string written as a literal. -/
def str (s : String) : Str := s.toList.map Char.toNat

/-- The path separator. -/
def sep : ℕ := '/'.toNat

/-- How a run of a tool ends early. -/
inductive Failure where
  /-- `sys.exit` with a message. -/
  | exit (message : Str)
  | assertionError
  | indexError
  | keyError
  | valueError
  | structError
  | unicodeEncodeError
  | recursionError
  deriving DecidableEq, Repr

section Except

variable {ε : Type*} {α β : Type}

/-- A sequence of two computations succeeds when both do. -/
theorem bind_eq_ok {x : Except ε α} {f : α → Except ε β} {b : β} :
    x >>= f = .ok b ↔ ∃ a, x = .ok a ∧ f a = .ok b := by
  cases x with
  | error e => exact ⟨nofun, fun ⟨_, h, _⟩ => nomatch h⟩
  | ok a => exact ⟨fun h => ⟨a, rfl, h⟩, fun ⟨_, h, hf⟩ => by cases h; exact hf⟩

theorem map_eq_ok {x : Except ε α} {f : α → β} {b : β} :
    f <$> x = .ok b ↔ ∃ a, x = .ok a ∧ f a = b := by
  cases x with
  | error e => exact ⟨nofun, fun ⟨_, h, _⟩ => nomatch h⟩
  | ok a =>
    exact ⟨fun h => ⟨a, rfl, Except.ok.inj h⟩, fun ⟨_, h, hf⟩ => by cases h; rw [← hf]; rfl⟩

/-- A traversal succeeds when every element does, with the results in order. -/
theorem mapM_eq_ok {f : α → Except ε β} {l : List α} {r : List β} :
    l.mapM f = .ok r ↔ List.Forall₂ (fun a b => f a = .ok b) l r := by
  induction l generalizing r with
  | nil =>
    rw [List.mapM_nil, List.forall₂_nil_left_iff]
    exact ⟨fun h => (Except.ok.inj h).symm, fun h => h ▸ rfl⟩
  | cons a l ih =>
    rw [List.mapM_cons, List.forall₂_cons_left_iff]
    constructor
    · intro h
      obtain ⟨b, hb, h⟩ := bind_eq_ok.mp h
      obtain ⟨bs, hbs, h⟩ := bind_eq_ok.mp h
      exact ⟨b, bs, hb, ih.mp hbs, (Except.ok.inj h).symm⟩
    · rintro ⟨b, bs, hb, hbs, rfl⟩
      exact bind_eq_ok.mpr ⟨b, hb, bind_eq_ok.mpr ⟨bs, ih.mpr hbs, rfl⟩⟩

/-- Every result of a traversal comes from some element. -/
theorem exists_of_mem_right {α β : Type*} {R : α → β → Prop} {l : List α} {r : List β} {b : β}
    (h : List.Forall₂ R l r) (hb : b ∈ r) : ∃ a ∈ l, R a b := by
  induction h with
  | nil => cases hb
  | @cons x y l r hxy hall ih =>
    rcases List.mem_cons.mp hb with rfl | hb
    · exact ⟨x, List.mem_cons_self, hxy⟩
    · obtain ⟨a, ha, hab⟩ := ih hb
      exact ⟨a, List.mem_cons_of_mem x ha, hab⟩

/-- Every element of a traversal has its result. -/
theorem exists_of_mem_left {α β : Type*} {R : α → β → Prop} {l : List α} {r : List β} {a : α}
    (h : List.Forall₂ R l r) (ha : a ∈ l) : ∃ b ∈ r, R a b :=
  exists_of_mem_right h.flip ha

/-- A traversal whose every element succeeds. -/
theorem mapM_ok {f : α → Except ε β} {g : α → β} {l : List α} (h : ∀ a ∈ l, f a = .ok (g a)) :
    l.mapM f = .ok (l.map g) := by
  refine mapM_eq_ok.mpr ?_
  induction l with
  | nil => exact List.Forall₂.nil
  | cons a l ih =>
    exact List.Forall₂.cons (h a List.mem_cons_self)
      (ih fun x hx => h x (List.mem_cons_of_mem a hx))

/-- A traversal completes when every element does. -/
theorem mapM_completes {f : α → Except ε β} {l : List α} :
    (∃ r, l.mapM f = .ok r) ↔ ∀ a ∈ l, ∃ b, f a = .ok b := by
  constructor
  · rintro ⟨r, h⟩ a ha
    obtain ⟨b, _, hb⟩ := exists_of_mem_left (mapM_eq_ok.mp h) ha
    exact ⟨b, hb⟩
  · intro h
    induction l with
    | nil => exact ⟨[], rfl⟩
    | cons a l ih =>
      obtain ⟨b, hb⟩ := h a List.mem_cons_self
      obtain ⟨r, hr⟩ := ih fun x hx => h x (List.mem_cons_of_mem a hx)
      exact ⟨b :: r, mapM_eq_ok.mpr (List.Forall₂.cons hb (mapM_eq_ok.mp hr))⟩

/-- The invariant rule of a loop: what every pass that completes keeps holds
after the loop. -/
theorem foldlM_invariant {f : β → α → Except ε β} {l : List α} {s s' : β} {I : β → Prop}
    (hstep : ∀ a ∈ l, ∀ t t', I t → f t a = .ok t' → I t') (hs : I s)
    (h : l.foldlM f s = .ok s') : I s' := by
  induction l generalizing s with
  | nil =>
    cases h
    exact hs
  | cons a l ih =>
    rw [List.foldlM_cons] at h
    obtain ⟨t, hone, hrest⟩ := bind_eq_ok.mp h
    exact ih (fun x hx => hstep x (List.mem_cons_of_mem a hx))
      (hstep a List.mem_cons_self s t hs hone) hrest

/-- The invariant rule of a loop, for an invariant that knows what the loop has
gone over so far. -/
theorem foldlM_through {f : β → α → Except ε β} {all before l : List α} {s s' : β}
    {I : List α → β → Prop}
    (hstep : ∀ before a rest t t', all = before ++ a :: rest → I before t → f t a = .ok t' →
      I (before ++ [a]) t') (hall : all = before ++ l) (hs : I before s)
    (h : l.foldlM f s = .ok s') : I all s' := by
  induction l generalizing before s with
  | nil =>
    cases h
    rwa [hall, List.append_nil]
  | cons a l ih =>
    rw [List.foldlM_cons] at h
    obtain ⟨t, hone, hrest⟩ := bind_eq_ok.mp h
    exact ih (by rw [hall, List.append_assoc]; rfl) (hstep before a l s t hall hs hone) hrest

/-- What each pass of a loop brings about, and every pass keeps, holds after the
loop for all that it went over. -/
theorem foldlM_each {f : β → α → Except ε β} {l : List α} {s s' : β} {I : β → Prop}
    {Q : α → β → Prop} (hstep : ∀ a t t', I t → f t a = .ok t' → I t' ∧ Q a t')
    (hkeep : ∀ x a t t', I t → f t a = .ok t' → Q x t → Q x t') (hs : I s)
    (h : l.foldlM f s = .ok s') : ∀ x ∈ l, Q x s' := by
  induction l generalizing s with
  | nil => exact fun x hx => absurd hx List.not_mem_nil
  | cons a l ih =>
    rw [List.foldlM_cons] at h
    obtain ⟨t, hone, hrest⟩ := bind_eq_ok.mp h
    obtain ⟨ht, hq⟩ := hstep a s t hs hone
    intro x hx
    rcases List.mem_cons.mp hx with rfl | hx
    · exact (foldlM_invariant (I := fun c => I c ∧ Q x c) (fun y _ c c' hc hy =>
        ⟨(hstep y c c' hc.1 hy).1, hkeep x y c c' hc.1 hy hc.2⟩) ⟨ht, hq⟩ hrest).2
    · exact ih ht hrest x hx

theorem exists_of_isOk {x : Except ε α} (h : x.isOk = true) : ∃ a, x = .ok a := by
  cases x with
  | error e => cases h
  | ok a => exact ⟨a, rfl⟩

end Except

/-! ## Paths -/

/-- `s.rsplit('/', 1)` when the string has a separator: the parts before and
after the last one. -/
def rsplit : Str → Option (Str × Str)
  | [] => none
  | c :: s =>
    match rsplit s with
    | some (p, n) => some (c :: p, n)
    | none => if c = sep then some ([], s) else none

theorem rsplit_eq_none {s : Str} : rsplit s = none ↔ sep ∉ s := by
  induction s with
  | nil => simp [rsplit]
  | cons c s ih =>
    unfold rsplit
    cases h : rsplit s with
    | some r =>
      have hs : sep ∈ s := by
        by_contra hc
        rw [ih.mpr hc] at h
        cases h
      simp [hs]
    | none =>
      have hs := ih.mp h
      by_cases hc : c = sep
      · simp [hc]
      · simp [hc, hs, Ne.symm hc]

theorem rsplit_eq_some {s p n : Str} : rsplit s = some (p, n) ↔ s = p ++ sep :: n ∧ sep ∉ n := by
  induction s generalizing p with
  | nil => simp [rsplit]
  | cons c s ih =>
    unfold rsplit
    cases h : rsplit s with
    | some r =>
      obtain ⟨q, m⟩ := r
      have hs : sep ∈ s := by
        by_contra hc
        rw [rsplit_eq_none.mpr hc] at h
        cases h
      constructor
      · intro he
        cases he
        obtain ⟨hq, hm⟩ := ih.mp h
        exact ⟨congrArg (c :: ·) hq, hm⟩
      · rintro ⟨he, hn⟩
        cases p with
        | nil =>
          rw [List.nil_append] at he
          exact absurd ((List.cons.inj he).2 ▸ hs) hn
        | cons d p =>
          obtain ⟨rfl, htail⟩ := List.cons.inj (he.trans (List.cons_append ..))
          have hr := ih.mpr ⟨htail, hn⟩
          rw [h] at hr
          cases hr
          rfl
    | none =>
      have hs := rsplit_eq_none.mp h
      constructor
      · intro he
        dsimp only at he
        split at he
        · next hc =>
          cases he
          exact ⟨by rw [hc, List.nil_append], hs⟩
        · cases he
      · rintro ⟨he, hn⟩
        cases p with
        | nil =>
          obtain ⟨rfl, rfl⟩ := List.cons.inj he
          simp
        | cons d p =>
          obtain ⟨_, htail⟩ := List.cons.inj (he.trans (List.cons_append ..))
          exact absurd (htail ▸ by simp) hs

/-- `path.rsplit('/', 1)[0] or '/'`. -/
def parentPath (path : Str) : Str :=
  let p := match rsplit path with
    | some (p, _) => p
    | none => path
  if p = [] then [sep] else p

/-- `path.rsplit('/', 1)[1]`. -/
def lastName (path : Str) : Except Failure Str :=
  match rsplit path with
  | some (_, n) => .ok n
  | none => .error .indexError

theorem lastName_eq_ok {path n : Str} :
    lastName path = .ok n ↔ ∃ p, rsplit path = some (p, n) := by
  unfold lastName
  cases rsplit path with
  | none => simp
  | some r =>
    obtain ⟨p, m⟩ := r
    simp

/-! ## Words of a line -/

/-- `str.isspace` of one code point. -/
def isSpace (c : ℕ) : Bool :=
  (0x09 ≤ c && c ≤ 0x0d) || (0x1c ≤ c && c ≤ 0x20) || c == 0x85 || c == 0xa0 || c == 0x1680 ||
    (0x2000 ≤ c && c ≤ 0x200a) || c == 0x2028 || c == 0x2029 || c == 0x202f || c == 0x205f ||
    c == 0x3000

/-- `s.strip()`. -/
def strip (s : Str) : Str := ((s.dropWhile isSpace).reverse.dropWhile isSpace).reverse

/-- `s.split()`. -/
def split (s : Str) : List Str := (s.splitOnP isSpace).filter (· ≠ [])

/-- `line.split('#')[0]`. -/
def uncomment (line : Str) : Str := line.takeWhile (· ≠ '#'.toNat)

/-! ## Numbers -/

/-- The zeros of the scripts with decimal digits, each followed by its other nine. -/
def decimalZeros : List ℕ :=
  [0x30, 0x660, 0x6f0, 0x7c0, 0x966, 0x9e6, 0xa66, 0xae6, 0xb66, 0xbe6, 0xc66, 0xce6, 0xd66,
    0xde6, 0xe50, 0xed0, 0xf20, 0x1040, 0x1090, 0x17e0, 0x1810, 0x1946, 0x19d0, 0x1a80, 0x1a90,
    0x1b50, 0x1bb0, 0x1c40, 0x1c50, 0xa620, 0xa8d0, 0xa900, 0xa9d0, 0xa9f0, 0xaa50, 0xabf0,
    0xff10, 0x104a0, 0x10d30, 0x11066, 0x110f0, 0x11136, 0x111d0, 0x112f0, 0x11450, 0x114d0,
    0x11650, 0x116c0, 0x11730, 0x118e0, 0x11950, 0x11c50, 0x11d50, 0x11da0, 0x16a60, 0x16ac0,
    0x16b50, 0x1d7ce, 0x1d7d8, 0x1d7e2, 0x1d7ec, 0x1d7f6, 0x1e140, 0x1e2f0, 0x1e950, 0x1fbf0]

/-- A decimal digit of any script as its ASCII digit; other code points unchanged. -/
def asciiDigit (c : ℕ) : ℕ :=
  match decimalZeros.find? fun z => z ≤ c && c < z + 10 with
  | some z => 0x30 + (c - z)
  | none => c

/-- The digits of a number in a base up to ten, with single underscores
between them; `gap` says that an underscore may not come next. -/
def digits (base : ℕ) : Bool → Str → Option (List ℕ)
  | gap, [] => if gap then none else some []
  | gap, c :: s =>
    if c = '_'.toNat then if gap then none else digits base true s
    else if 0x30 ≤ c ∧ c < 0x30 + base then (digits base false s).map fun ds => (c - 0x30) :: ds
    else none

/-- The longest decimal string that `int` converts. -/
def maxStrDigits : ℕ := 4300

/-- `int(s, base)` for the bases eight and ten. -/
def int (base : ℕ) (s : Str) : Except Failure ℤ :=
  let s := (strip s).map asciiDigit
  let negative := s.head? = some '-'.toNat
  let s := if negative ∨ s.head? = some '+'.toNat then s.tail else s
  let s := if base = 8 ∧ (s.take 2 = str "0o" ∨ s.take 2 = str "0O") then
    -- one underscore may follow the prefix
    (if s[2]? = some '_'.toNat then s.drop 3 else s.drop 2) else s
  match digits base true s with
  | none => .error .valueError
  | some ds =>
    if base = 10 ∧ maxStrDigits < ds.length then .error .valueError
    else
      let n : ℕ := ds.foldl (fun n d => n * base + d) 0
      .ok (if negative then -n else n)

/-! ## Latin-1 -/

/-- `s.encode('latin1')`. -/
def encodeLatin1 (s : Str) : Except Failure (List UInt8) :=
  s.mapM fun c => if c < 256 then .ok (UInt8.ofNat c) else .error .unicodeEncodeError

/-- The UTF-8 bytes of one code point; a lone surrogate has none. -/
def utf8 (c : ℕ) : Except Failure (List UInt8) :=
  if c < 0x80 then .ok [UInt8.ofNat c]
  else if c < 0x800 then .ok [UInt8.ofNat (0xc0 + c / 64), UInt8.ofNat (0x80 + c % 64)]
  else if 0xd800 ≤ c ∧ c < 0xe000 then .error .unicodeEncodeError
  else if c < 0x10000 then
    .ok [UInt8.ofNat (0xe0 + c / 4096), UInt8.ofNat (0x80 + c / 64 % 64),
      UInt8.ofNat (0x80 + c % 64)]
  else
    .ok [UInt8.ofNat (0xf0 + c / 262144), UInt8.ofNat (0x80 + c / 4096 % 64),
      UInt8.ofNat (0x80 + c / 64 % 64), UInt8.ofNat (0x80 + c % 64)]

/-- `s.encode()`. -/
def encodeUtf8 (s : Str) : Except Failure (List UInt8) := List.flatten <$> s.mapM utf8

/-- `b.decode('latin1')`. -/
def decodeLatin1 (b : List UInt8) : Str := b.map UInt8.toNat

/-- A string that encodes decodes to itself. -/
theorem decodeLatin1_encodeLatin1 {s : Str} {b : List UInt8} (h : encodeLatin1 s = .ok b) :
    decodeLatin1 b = s := by
  unfold decodeLatin1
  have hall := mapM_eq_ok.mp h
  induction hall with
  | nil => rfl
  | @cons c v s b hv hall ih =>
    split at hv
    · next hc =>
      cases hv
      rw [List.map_cons, ih (mapM_eq_ok.mpr hall), UInt8.toNat_ofNat_of_lt' hc]
    · cases hv

end Sys16.PyText
