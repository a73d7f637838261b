import Mathlib.Data.List.Basic

/-!
# C strings in buffers

A C string is a list of bytes without NUL. In a buffer it is followed by a NUL, and a reader
takes the bytes up to the first NUL. Reads and writes outside of the buffer fail with the index.

`writeStrings_ok` and `writeStrings_error` say all about strings that are written one after the
other, and `readString_of_holds` what is read after that.
-/

namespace Infra

/-- The bytes of a C string, without its terminator. -/
@[ext]
structure CString where
  bytes : List UInt8
  noNul : 0 ∉ bytes
deriving DecidableEq

namespace CString

def empty : CString := ⟨[], List.not_mem_nil⟩

def cons (c : UInt8) (hc : c ≠ 0) (s : CString) : CString :=
  ⟨c :: s.bytes, List.not_mem_cons_of_ne_of_not_mem hc.symm s.noNul⟩

/-- The strings in their order, with a byte between two of them. -/
def join (sep : UInt8) (hsep : sep ≠ 0) : List CString → CString
  | [] => empty
  | [s] => s
  | s :: t :: ss =>
    { bytes := s.bytes ++ sep :: (join sep hsep (t :: ss)).bytes
      noNul := by
        rw [List.mem_append, List.mem_cons]
        rintro (h | h | h)
        · exact s.noNul h
        · exact hsep h.symm
        · exact (join sep hsep (t :: ss)).noNul h }

variable {sep : UInt8} {hsep : sep ≠ 0}

theorem join_bytes : ∀ ss : List CString,
    (join sep hsep ss).bytes = [sep].intercalate (ss.map (·.bytes))
  | [] => rfl
  | [s] => by simp [join]
  | s :: t :: ss => by
    simp only [join, join_bytes (t :: ss), List.map_cons, List.intercalate_cons_cons,
      List.append_assoc, List.singleton_append]

/-- The length of the joined strings and of a separator or terminator after each. -/
def joinedSize : List CString → Nat
  | [] => 0
  | s :: ss => s.bytes.length + 1 + joinedSize ss

@[simp] theorem joinedSize_nil : joinedSize [] = 0 := rfl

@[simp] theorem joinedSize_cons (s : CString) (ss : List CString) :
    joinedSize (s :: ss) = s.bytes.length + 1 + joinedSize ss := rfl

theorem length_join (hsep : sep ≠ 0) : ∀ {ss : List CString}, ss ≠ [] →
    (join sep hsep ss).bytes.length + 1 = joinedSize ss
  | [], h => absurd rfl h
  | [s], _ => by simp [join]
  | s :: t :: ss, _ => by
    have ih := length_join hsep (List.cons_ne_nil t ss)
    rw [joinedSize_cons, ← ih, join, List.length_append, List.length_cons]
    omega

/-- **Splitting at the separator gives back the strings**, if none of them has it. -/
theorem splitOn_join (hsep : sep ≠ 0) {ss : List CString} (hne : ss ≠ [])
    (h : ∀ s ∈ ss, sep ∉ s.bytes) :
    (join sep hsep ss).bytes.splitOn sep = ss.map (·.bytes) := by
  rw [join_bytes]
  refine List.splitOn_intercalate sep ?_ (by simpa using hne)
  intro l hl
  obtain ⟨s, hs, rfl⟩ := List.mem_map.mp hl
  exact h s hs

theorem bytes_injective : Function.Injective CString.bytes := fun _ _ => CString.ext

/-- **Strings without the separator are determined by how they are joined.** -/
theorem join_inj {ss ts : List CString} (hs : ss ≠ []) (ht : ts ≠ [])
    (hss : ∀ s ∈ ss, sep ∉ s.bytes) (hts : ∀ t ∈ ts, sep ∉ t.bytes) :
    join sep hsep ss = join sep hsep ts ↔ ss = ts := by
  refine ⟨fun h => ?_, fun h => h ▸ rfl⟩
  have hsplit := splitOn_join hsep hs hss
  rw [h, splitOn_join hsep ht hts] at hsplit
  exact (bytes_injective.list_map hsplit).symm

end CString

/-! ## Buffers -/

/-- An array of bytes. -/
abbrev Buffer (size : Nat) := Fin size → UInt8

namespace Buffer

variable {size : Nat}

def get (b : Buffer size) (i : Nat) : Option UInt8 := if h : i < size then some (b ⟨i, h⟩) else none

/-- Writes a byte. -/
def store (b : Buffer size) (i : Nat) (c : UInt8) : Except Nat (Buffer size) :=
  if i < size then .ok fun j => if j = i then c else b j else .error i

/-- Writes bytes from an index on. -/
def write (b : Buffer size) (i : Nat) : List UInt8 → Except Nat (Buffer size)
  | [] => .ok b
  | c :: cs => do
    let b ← b.store i c
    write b (i + 1) cs

/-- Writes bytes and a terminator. -/
def writeString (b : Buffer size) (i : Nat) (cs : List UInt8) : Except Nat (Buffer size) :=
  b.write i (cs ++ [0])

/-- Writes strings one after the other, each over the terminator of the one before. -/
def writeStrings (b : Buffer size) (i : Nat) : List (List UInt8) → Except Nat (Buffer size)
  | [] => .ok b
  | p :: ps => do
    let b ← b.writeString i p
    writeStrings b (i + p.length) ps

/-- Reads up to the first NUL among the next `n` bytes. -/
def readUpTo (b : Buffer size) : Nat → Nat → Except Nat CString
  | 0, i => .error i
  | n + 1, i =>
    match b.get i with
    | none => .error i
    | some c =>
      if hc : c = 0 then .ok .empty
      else do
        let s ← readUpTo b n (i + 1)
        return s.cons c hc

/-- Reads up to the first NUL. -/
def readString (b : Buffer size) (i : Nat) : Except Nat CString := b.readUpTo (size - i) i

/-- The bytes are in the buffer from an index on. -/
def Holds (b : Buffer size) : Nat → List UInt8 → Prop
  | _, [] => True
  | i, c :: cs => b.get i = some c ∧ Holds b (i + 1) cs

variable {b b' : Buffer size} {i j : Nat} {c : UInt8}

theorem get_lt (h : b.get i = some c) : i < size := by
  by_contra hi
  rw [get, dif_neg hi] at h
  cases h

theorem holds_append {cs ds : List UInt8} :
    b.Holds i (cs ++ ds) ↔ b.Holds i cs ∧ b.Holds (i + cs.length) ds := by
  induction cs generalizing i with
  | nil => simp [Holds]
  | cons c cs ih =>
    have hi : i + (c :: cs).length = i + 1 + cs.length := by
      rw [List.length_cons]
      omega
    rw [List.cons_append, Holds, Holds, ih, and_assoc, hi]

/-- What is held stays held where nothing is written. -/
theorem Holds.frame {cs : List UInt8} {k : Nat} (hb : b.Holds i cs) (hk : i + cs.length ≤ k)
    (hframe : ∀ j < k, b'.get j = b.get j) : b'.Holds i cs := by
  induction cs generalizing i with
  | nil => trivial
  | cons c cs ih =>
    rw [List.length_cons] at hk
    exact ⟨(hframe i (by omega)).trans hb.1, ih hb.2 (by omega)⟩

theorem Holds.length_le {cs : List UInt8} (hb : b.Holds i cs) (hi : i ≤ size) :
    i + cs.length ≤ size := by
  induction cs generalizing i with
  | nil => exact hi
  | cons c cs ih =>
    have hle := ih hb.2 (get_lt hb.1)
    rw [List.length_cons]
    omega

/-! ## Writing -/

theorem store_ok (h : i < size) :
    ∃ b', b.store i c = .ok b' ∧ b'.get i = some c ∧ ∀ j ≠ i, b'.get j = b.get j := by
  refine ⟨_, if_pos h, by simp [get, h], fun j hj => ?_⟩
  by_cases hlt : j < size
  · simp [get, hlt, hj]
  · simp [get, hlt]

/-- **A write that ends in the buffer.** Nothing before its first byte changes. -/
theorem write_ok {cs : List UInt8} (h : i + cs.length ≤ size) :
    ∃ b', b.write i cs = .ok b' ∧ b'.Holds i cs ∧ ∀ j < i, b'.get j = b.get j := by
  induction cs generalizing b i with
  | nil => exact ⟨b, rfl, trivial, fun _ _ => rfl⟩
  | cons c cs ih =>
    rw [List.length_cons] at h
    obtain ⟨b₁, hstore, hself, hother⟩ := store_ok (b := b) (c := c) (show i < size by omega)
    obtain ⟨b₂, hwrite, hholds, hframe⟩ := ih (b := b₁) (i := i + 1) (by omega)
    refine ⟨b₂, by rw [write, hstore]; exact hwrite, ⟨?_, hholds⟩, fun j hj => ?_⟩
    · rw [hframe i (Nat.lt_succ_self i), hself]
    · rw [hframe j (by omega), hother j (by omega)]

/-- **A write that does not end in the buffer fails right after it.** -/
theorem write_error {cs : List UInt8} (hi : i ≤ size) (h : size < i + cs.length) :
    b.write i cs = .error size := by
  induction cs generalizing b i with
  | nil => exact absurd hi (Nat.not_le.mpr h)
  | cons c cs ih =>
    rw [List.length_cons] at h
    rcases Nat.lt_or_eq_of_le hi with hlt | rfl
    · obtain ⟨b₁, hstore, -⟩ := store_ok (b := b) (c := c) hlt
      rw [write, hstore]
      exact ih hlt (by omega)
    · rw [write, store, if_neg (Nat.lt_irrefl i)]
      rfl

theorem writeString_ok {cs : List UInt8} (h : i + cs.length < size) :
    ∃ b', b.writeString i cs = .ok b' ∧ b'.Holds i (cs ++ [0]) ∧ ∀ j < i, b'.get j = b.get j :=
  write_ok (by rw [List.length_append, List.length_singleton]; omega)

theorem writeString_error {cs : List UInt8} (hi : i ≤ size) (h : size ≤ i + cs.length) :
    b.writeString i cs = .error size :=
  write_error hi (by rw [List.length_append, List.length_singleton]; omega)

theorem writeStrings_singleton (b : Buffer size) (i : Nat) (p : List UInt8) :
    b.writeStrings i [p] = b.writeString i p := by
  rw [writeStrings]
  cases b.writeString i p with
  | error e => rfl
  | ok b => rfl

/-- **Strings that are written one after the other are one string**, if they fit. -/
theorem writeStrings_ok {ps : List (List UInt8)} (hne : ps ≠ [])
    (h : i + ps.flatten.length < size) :
    ∃ b', b.writeStrings i ps = .ok b' ∧ b'.Holds i (ps.flatten ++ [0]) ∧
      ∀ j < i, b'.get j = b.get j := by
  induction ps generalizing b i with
  | nil => exact absurd rfl hne
  | cons p ps ih =>
    rw [List.flatten_cons, List.length_append] at h
    obtain ⟨b₁, hwrite, hholds, hframe⟩ :=
      writeString_ok (b := b) (show i + p.length < size by omega)
    cases ps with
    | nil => exact ⟨b₁, by rw [writeStrings, hwrite]; rfl, by simpa using hholds, hframe⟩
    | cons q qs =>
      obtain ⟨b₂, hwrites, hholds', hframe'⟩ :=
        ih (b := b₁) (i := i + p.length) (List.cons_ne_nil q qs) (by omega)
      refine ⟨b₂, by rw [writeStrings, hwrite]; exact hwrites, ?_, fun j hj => ?_⟩
      · rw [List.flatten_cons, List.append_assoc, holds_append]
        exact ⟨(holds_append.mp hholds).1.frame (Nat.le_refl _) hframe', hholds'⟩
      · rw [hframe' j (by omega), hframe j hj]

/-- **Strings that do not fit fail at the first byte after the buffer.** -/
theorem writeStrings_error {ps : List (List UInt8)} (hi : i < size)
    (h : size ≤ i + ps.flatten.length) : b.writeStrings i ps = .error size := by
  induction ps generalizing b i with
  | nil => exact absurd hi (Nat.not_lt.mpr h)
  | cons p ps ih =>
    rw [List.flatten_cons, List.length_append] at h
    rw [writeStrings]
    rcases Nat.lt_or_ge (i + p.length) size with hp | hp
    · obtain ⟨b₁, hwrite, -⟩ := writeString_ok (b := b) hp
      rw [hwrite]
      exact ih hp (by omega)
    · rw [writeString_error (Nat.le_of_lt hi) hp]
      rfl

/-! ## Reading -/

theorem readUpTo_of_holds {n : Nat} {s : CString} (hn : s.bytes.length < n)
    (hb : b.Holds i (s.bytes ++ [0])) : b.readUpTo n i = .ok s := by
  obtain ⟨cs, hcs⟩ := s
  induction cs generalizing n i with
  | nil =>
    obtain ⟨n, rfl⟩ := Nat.exists_eq_succ_of_ne_zero (Nat.ne_of_gt hn)
    rw [readUpTo, hb.1]
    rfl
  | cons c cs ih =>
    obtain ⟨hc, hcs'⟩ := List.ne_and_not_mem_of_not_mem_cons hcs
    obtain ⟨n, rfl⟩ := Nat.exists_eq_succ_of_ne_zero (Nat.ne_zero_of_lt hn)
    rw [readUpTo, hb.1]
    simp only [dif_neg (Ne.symm hc)]
    rw [ih hcs' (Nat.lt_of_succ_lt_succ hn) hb.2]
    rfl

/-- **A string that was written with its terminator is read back.** -/
theorem readString_of_holds {s : CString} (hb : b.Holds i (s.bytes ++ [0])) :
    b.readString i = .ok s := by
  have hi : i < size := by
    match hs : s.bytes, hb with
    | [], hb => exact get_lt hb.1
    | c :: cs, hb => exact get_lt hb.1
  have hle := hb.length_le (Nat.le_of_lt hi)
  rw [List.length_append, List.length_singleton] at hle
  exact readUpTo_of_holds (by omega) hb

end Buffer

end Infra
