import Mathlib.Data.Nat.ModEq
import AttentionBroker.Infra.Loop
import AttentionBroker.Infra.Transition
import AttentionBroker.Trie.Basic

/-!
# `RequestQueue`

`commons/RequestQueue.{h,cc}`. A ring buffer that doubles its array when it is full. Every
index is checked, so a call that leaves the array is a fault.

`Holds` says which list of requests a ring buffer stands for. `enqueue_spec`, `dequeue_nil`
and `dequeue_cons` say that the buffer is that list used as a queue.
-/

namespace AttentionBroker

open Infra

/-- `RequestQueue`. A place of the array without a request is `none`. -/
structure RequestQueue (ρ : Type) where
  requests : List (Option ρ)
  size : UInt32
  count : UInt32
  start : UInt32
  end_ : UInt32

namespace RequestQueue

variable {ρ : Type}

/-- `RequestQueue::RequestQueue`. -/
def new (initialSize : UInt32) : RequestQueue ρ where
  requests := List.replicate initialSize.toNat none
  size := initialSize
  count := 0
  start := 0
  end_ := 0

/-- `array[i]`. -/
def read (array : List (Option ρ)) (i : UInt32) : Except Fault (Option ρ) :=
  match array[i.toNat]? with
  | some x => .ok x
  | none => .error .outOfBounds

/-- `array[i] = x`. -/
def write (array : List (Option ρ)) (i : UInt32) (x : Option ρ) :
    Except Fault (List (Option ρ)) :=
  if i.toNat < array.length then .ok (array.set i.toNat x) else .error .outOfBounds

/-- The variables of the loop in `enlarge_request_queue`. -/
structure Copy (ρ : Type) where
  newQueue : List (Option ρ)
  cursor : UInt32
  newCursor : UInt32

/-- The body of the `do` loop in `enlarge_request_queue`, with its test. -/
def copyBody (q : RequestQueue ρ) (c : Copy ρ) : Except Fault (Copy ρ ⊕ Copy ρ) := do
  let newQueue ← write c.newQueue c.newCursor (← read q.requests c.cursor)
  let c := { newQueue := newQueue, cursor := (c.cursor + 1) % q.size, newCursor := c.newCursor + 1 }
  if c.cursor ≠ q.end_ then .ok (.inl c) else .ok (.inr c)

/--
`RequestQueue::enlarge_request_queue`.

Every iteration writes the next place of the new array, so the loop cannot take more of
them than that array has places, and one that leaves it.
-/
def enlargeRequestQueue (q : RequestQueue ρ) : Except Fault (RequestQueue ρ) := do
  let newSize := q.size * 2
  let c ← loop .diverges (copyBody q) (newSize.toNat + 1)
    { newQueue := List.replicate newSize.toNat none, cursor := q.start, newCursor := 0 }
  .ok { q with requests := c.newQueue, size := newSize, start := 0, end_ := c.newCursor }

/-- The test for a full buffer in `enqueue`. -/
def makeRoom (q : RequestQueue ρ) : Except Fault (RequestQueue ρ) :=
  if q.count = q.size then q.enlargeRequestQueue else .ok q

/-- `RequestQueue::enqueue`. -/
def enqueue (q : RequestQueue ρ) (request : ρ) : Except Fault (RequestQueue ρ) := do
  let q ← q.makeRoom
  let requests ← write q.requests q.end_ (some request)
  .ok { q with requests := requests, end_ := (q.end_ + 1) % q.size, count := q.count + 1 }

/-- `RequestQueue::dequeue`. -/
def dequeue (q : RequestQueue ρ) : Except Fault (Option ρ × RequestQueue ρ) :=
  if q.count > 0 then do
    let answer ← read q.requests q.start
    .ok (answer, { q with start := (q.start + 1) % q.size, count := q.count - 1 })
  else .ok (none, q)

/-! ## What a queue holds -/

/-- The requests in the buffer, from the oldest to the newest. -/
def toList (q : RequestQueue ρ) : List ρ :=
  (List.range q.count.toNat).filterMap fun i =>
    (q.requests[(q.start.toNat + i) % q.size.toNat]?).join

/-- The buffer holds a list of requests. -/
structure Holds (q : RequestQueue ρ) (l : List ρ) : Prop where
  size : q.requests.length = q.size.toNat
  start_lt : q.start.toNat < q.size.toNat
  count : q.count.toNat = l.length
  le : l.length ≤ q.size.toNat
  end_ : q.end_.toNat = (q.start.toNat + l.length) % q.size.toNat
  slots : ∀ i r, l[i]? = some r →
    q.requests[(q.start.toNat + i) % q.size.toNat]? = some (some r)

variable {q q' : RequestQueue ρ} {l : List ρ} {r : ρ}

theorem Holds.pos (h : Holds q l) : 0 < q.size.toNat := Nat.zero_lt_of_lt h.start_lt

theorem Holds.toList_eq (h : Holds q l) : q.toList = l := by
  have hmap : (List.range l.length).map (fun i =>
      (q.requests[(q.start.toNat + i) % q.size.toNat]?).join) = l.map some := by
    refine List.ext_getElem (by simp) fun i hi₁ hi₂ => ?_
    have hi : i < l.length := by simpa using hi₂
    simp [h.slots i l[i] (List.getElem?_eq_getElem hi)]
  have hfilter := List.filterMap_map (f := fun i =>
    (q.requests[(q.start.toNat + i) % q.size.toNat]?).join) (g := id) (l := List.range l.length)
  rw [hmap, List.filterMap_map] at hfilter
  rw [toList, h.count]
  exact hfilter.symm.trans List.filterMap_some

theorem holds_new {initialSize : UInt32} (h : 0 < initialSize.toNat) :
    Holds (new initialSize : RequestQueue ρ) [] where
  size := List.length_replicate
  start_lt := h
  count := rfl
  le := Nat.zero_le _
  end_ := (Nat.zero_mod _).symm
  slots i r hr := by simp at hr

/-- Two places of one round are different. -/
theorem slot_inj {a i j s : Nat} (hi : i < s) (hj : j < s) (h : (a + i) % s = (a + j) % s) :
    i = j :=
  (Nat.ModEq.add_left_cancel' a h).eq_of_lt_of_lt hi hj

/-- The next place, as the code computes it. -/
theorem next_slot {size x : UInt32} {n : Nat} (hx : x.toNat = n % size.toNat)
    (hpos : 0 < size.toNat) : ((x + 1) % size).toNat = (n + 1) % size.toNat := by
  have hlt : x.toNat < size.toNat := hx ▸ Nat.mod_lt _ hpos
  have hsucc : (x + 1).toNat = x.toNat + 1 := by
    rw [UInt32.toNat_add]
    exact Nat.mod_eq_of_lt (Nat.lt_of_le_of_lt hlt size.toNat_lt)
  rw [UInt32.toNat_mod, hsucc, hx, Nat.mod_add_mod]

theorem read_eq {array : List (Option ρ)} {i : UInt32} {x : Option ρ}
    (h : array[i.toNat]? = some x) : read array i = .ok x := by
  simp only [read, h]

theorem write_eq {array : List (Option ρ)} {i : UInt32} (h : i.toNat < array.length)
    (x : Option ρ) : write array i x = .ok (array.set i.toNat x) := if_pos h

/-! ## Enlarging -/

/-- The invariant of the copy loop: the first `n` requests are in the new array. -/
structure Copied (q : RequestQueue ρ) (n : Nat) (c : Copy ρ) : Prop where
  newCursor : c.newCursor.toNat = n
  cursor : c.cursor.toNat = (q.start.toNat + n) % q.size.toNat
  length : c.newQueue.length = q.size.toNat * 2
  copied : ∀ i < n, c.newQueue[i]? = q.requests[(q.start.toNat + i) % q.size.toNat]?

/-- One iteration copies the next request, and the loop ends after a whole round. -/
theorem copyBody_progress (h : Holds q l) (hfull : l.length = q.size.toNat)
    (hfits : q.size.toNat * 2 < 2 ^ 32) {n : Nat} (hn : n < q.size.toNat) {c : Copy ρ}
    (hc : Copied q n c) :
    Progress (fun c => ∃ n < q.size.toNat, Copied q n c)
      (fun c => q.size.toNat - c.newCursor.toNat) (Copied q q.size.toNat) c (copyBody q c) := by
  have hpos := h.pos
  -- the buffer is full, so it ends where it starts and the test is about a whole round
  have hend : q.end_.toNat = q.start.toNat := by
    rw [h.end_, hfull, Nat.add_mod_right, Nat.mod_eq_of_lt h.start_lt]
  have hn' : n < l.length := hfull.symm ▸ hn
  have hslot := h.slots n l[n] (List.getElem?_eq_getElem hn')
  have hlt : c.newCursor.toNat < c.newQueue.length := by
    rw [hc.newCursor, hc.length]
    omega
  have hsucc : (c.newCursor + 1).toNat = n + 1 := by
    rw [UInt32.toNat_add, hc.newCursor]
    exact Nat.mod_eq_of_lt (by rw [UInt32.toNat_one]; omega)
  let newQueue := c.newQueue.set c.newCursor.toNat (some l[n])
  let c' : Copy ρ :=
    { newQueue := newQueue, cursor := (c.cursor + 1) % q.size, newCursor := c.newCursor + 1 }
  have hc' : Copied q (n + 1) c' := by
    refine ⟨hsucc, next_slot hc.cursor hpos, ?_, fun i hi => ?_⟩
    · exact List.length_set.trans hc.length
    · show (c.newQueue.set c.newCursor.toNat (some l[n]))[i]? = _
      rw [hc.newCursor] at hlt ⊢
      by_cases hin : i = n
      · subst hin
        rw [List.getElem?_set_self hlt, hslot]
      · rw [List.getElem?_set_ne (Ne.symm hin)]
        exact hc.copied i (by omega)
  have hbody : copyBody q c = if c'.cursor ≠ q.end_ then .ok (.inl c') else .ok (.inr c') := by
    unfold copyBody
    rw [read_eq (by rw [hc.cursor]; exact hslot)]
    simp only [bind, Except.bind]
    rw [write_eq hlt]
  rw [hbody]
  by_cases hlast : n + 1 = q.size.toNat
  · have hcur : c'.cursor = q.end_ := by
      refine UInt32.toNat_inj.mp ?_
      rw [hc'.cursor, hend, hlast, Nat.add_mod_right, Nat.mod_eq_of_lt h.start_lt]
    rw [if_neg (not_not.mpr hcur)]
    exact hlast ▸ hc'
  · have hcur : c'.cursor ≠ q.end_ := by
      intro hcur
      have hround : (q.start.toNat + (n + 1)) % q.size.toNat = q.start.toNat := by
        rw [← hc'.cursor, hcur, hend]
      have hzero : n + 1 = 0 := slot_inj (by omega) hpos
        (hround.trans (Nat.mod_eq_of_lt h.start_lt).symm)
      exact Nat.succ_ne_zero n hzero
    rw [if_pos hcur]
    refine ⟨⟨n + 1, by omega, hc'⟩, ?_⟩
    show q.size.toNat - (c.newCursor + 1).toNat < q.size.toNat - c.newCursor.toNat
    rw [hsucc, hc.newCursor]
    omega

/-- **Enlarging a full buffer moves its requests to the front of a larger array.** -/
theorem enlargeRequestQueue_spec (h : Holds q l) (hfull : l.length = q.size.toNat)
    (hfits : q.size.toNat * 2 < 2 ^ 32) :
    ∃ q', q.enlargeRequestQueue = .ok q' ∧ Holds q' l ∧ q'.size.toNat = q.size.toNat * 2 := by
  have hpos := h.pos
  have hnew : (q.size * 2).toNat = q.size.toNat * 2 := by
    rw [UInt32.toNat_mul]
    exact Nat.mod_eq_of_lt hfits
  let c₀ : Copy ρ :=
    { newQueue := List.replicate (q.size * 2).toNat none, cursor := q.start, newCursor := 0 }
  have hinit : ∃ n < q.size.toNat, Copied q n c₀ :=
    ⟨0, hpos, rfl, (Nat.mod_eq_of_lt h.start_lt).symm, by rw [List.length_replicate, hnew],
      fun i hi => absurd hi (Nat.not_lt_zero i)⟩
  have hbound : q.size.toNat - c₀.newCursor.toNat < (q.size * 2).toNat + 1 := by
    show q.size.toNat - 0 < _
    omega
  have hbody : ∀ c, (∃ n < q.size.toNat, Copied q n c) →
      Progress (fun c => ∃ n < q.size.toNat, Copied q n c)
        (fun c => q.size.toNat - c.newCursor.toNat) (Copied q q.size.toNat) c (copyBody q c) := by
    rintro c ⟨n, hn, hc⟩
    exact copyBody_progress h hfull hfits hn hc
  obtain ⟨c, hloop, hc⟩ := loop_total hbody _ c₀ hinit hbound
  refine ⟨{ q with requests := c.newQueue, size := q.size * 2, start := 0, end_ := c.newCursor },
    ?_, ?_, hnew⟩
  · unfold enlargeRequestQueue
    simp only [bind, Except.bind]
    rw [hloop]
  · exact
      { size := by rw [hc.length]; exact hnew.symm
        start_lt := by show 0 < (q.size * 2).toNat; omega
        count := h.count
        le := by show l.length ≤ (q.size * 2).toNat; omega
        end_ := by
          show c.newCursor.toNat = (0 + l.length) % (q.size * 2).toNat
          rw [hc.newCursor, hnew, hfull, Nat.zero_add, Nat.mod_eq_of_lt (by omega)]
        slots := fun i r hr => by
          show c.newQueue[(0 + i) % (q.size * 2).toNat]? = some (some r)
          have hi : i < l.length := (List.getElem?_eq_some_iff.mp hr).1
          rw [Nat.zero_add, Nat.mod_eq_of_lt (by omega), hc.copied i (hfull ▸ hi)]
          exact h.slots i r hr }

theorem copyBody_ok {c : Copy ρ} {r : Copy ρ ⊕ Copy ρ} (hrun : copyBody q c = .ok r) :
    c.newCursor.toNat < c.newQueue.length ∧
      ∃ c' : Copy ρ, c'.newQueue.length = c.newQueue.length ∧
        c'.cursor = (c.cursor + 1) % q.size ∧ c'.newCursor = c.newCursor + 1 ∧
        r = if c'.cursor ≠ q.end_ then .inl c' else .inr c' := by
  cases hread : read q.requests c.cursor with
  | error e => simp [copyBody, hread, bind, Except.bind] at hrun
  | ok x =>
    by_cases hlt : c.newCursor.toNat < c.newQueue.length
    · refine ⟨hlt, { newQueue := c.newQueue.set c.newCursor.toNat x
                     cursor := (c.cursor + 1) % q.size
                     newCursor := c.newCursor + 1 }, List.length_set, rfl, rfl, ?_⟩
      simp only [copyBody, hread, write_eq hlt, bind, Except.bind] at hrun
      split at hrun <;> cases hrun <;> simp_all
    · simp [copyBody, hread, write, hlt, bind, Except.bind] at hrun

/-- **A buffer whose doubled size wraps around is not enlarged**: the copy leaves the array. -/
theorem enlargeRequestQueue_overflow (h : Holds q l) (hfull : l.length = q.size.toNat)
    (hover : 2 ^ 32 ≤ q.size.toNat * 2) (q' : RequestQueue ρ) :
    q.enlargeRequestQueue ≠ .ok q' := by
  intro hrun
  have hpos := h.pos
  have hend : q.end_.toNat = q.start.toNat := by
    rw [h.end_, hfull, Nat.add_mod_right, Nat.mod_eq_of_lt h.start_lt]
  have hsmall : (q.size * 2).toNat < q.size.toNat := by
    have hlt := q.size.toNat_lt
    rw [UInt32.toNat_mul]
    show q.size.toNat * 2 % 2 ^ 32 < q.size.toNat
    omega
  -- One round has more places than the new array, so no iteration can be the last.
  let Inv : Copy ρ → Prop := fun c => c.newCursor.toNat < q.size.toNat ∧
    c.cursor.toNat = (q.start.toNat + c.newCursor.toNat) % q.size.toNat ∧
    c.newQueue.length = (q.size * 2).toNat
  have hstep : ∀ c r, Inv c → copyBody q c = .ok r → ∃ c', Inv c' ∧ r = .inl c' := by
    rintro c r ⟨hlt, hcursor, hlen⟩ hbody
    obtain ⟨hroom, c', hlen', hcursor', hnew', rfl⟩ := copyBody_ok hbody
    have hsucc : c'.newCursor.toNat = c.newCursor.toNat + 1 := by
      have hbound := q.size.toNat_lt
      rw [hnew', UInt32.toNat_add]
      exact Nat.mod_eq_of_lt (by rw [UInt32.toNat_one]; omega)
    have hround : c'.cursor.toNat = (q.start.toNat + c'.newCursor.toNat) % q.size.toNat := by
      rw [hcursor', hsucc]
      exact next_slot hcursor hpos
    have hnext : c'.newCursor.toNat < q.size.toNat := by omega
    have hne : c'.cursor ≠ q.end_ := by
      intro he
      rw [he, hend] at hround
      have hzero := slot_inj hnext hpos (hround.symm.trans (Nat.mod_eq_of_lt h.start_lt).symm)
      omega
    exact ⟨c', ⟨hnext, hround, hlen'.trans hlen⟩, if_pos hne⟩
  have hnext : ∀ c c', Inv c → copyBody q c = .ok (.inl c') → Inv c' := by
    intro c c' hc hbody
    obtain ⟨c'', hc'', he⟩ := hstep c _ hc hbody
    cases he
    exact hc''
  have hlast : ∀ c c', Inv c → copyBody q c = .ok (.inr c') → False := by
    intro c c' hc hbody
    obtain ⟨c'', -, he⟩ := hstep c _ hc hbody
    cases he
  have hinit : Inv { newQueue := List.replicate (q.size * 2).toNat none, cursor := q.start,
                     newCursor := 0 } :=
    ⟨hpos, (Nat.mod_eq_of_lt h.start_lt).symm, List.length_replicate⟩
  unfold enlargeRequestQueue at hrun
  simp only [bind, Except.bind] at hrun
  split at hrun
  · cases hrun
  · next c hloop => exact loop_partial hnext hlast _ _ c hinit hloop

/-! ## First in, first out -/

/-- The buffer has a free place, or can be doubled. -/
def Fits (q : RequestQueue ρ) : Prop := q.count < q.size ∨ q.size.toNat * 2 < 2 ^ 32

instance (q : RequestQueue ρ) : Decidable q.Fits := inferInstanceAs (Decidable (_ ∨ _))

theorem makeRoom_spec (h : Holds q l) (hfits : q.Fits) :
    ∃ q', q.makeRoom = .ok q' ∧ Holds q' l ∧ l.length < q'.size.toNat := by
  by_cases hfull : q.count = q.size
  · have hlen : l.length = q.size.toNat := by rw [← h.count, hfull]
    have hdouble : q.size.toNat * 2 < 2 ^ 32 := by
      rcases hfits with hlt | hdouble
      · rw [hfull] at hlt
        exact absurd hlt (UInt32.lt_irrefl _)
      · exact hdouble
    obtain ⟨q', hrun, h', hsize⟩ := enlargeRequestQueue_spec h hlen hdouble
    have hpos := h.pos
    exact ⟨q', (if_pos hfull).trans hrun, h', by omega⟩
  · have hne : l.length ≠ q.size.toNat := by
      rw [← h.count]
      exact fun he => hfull (UInt32.toNat_inj.mp he)
    exact ⟨q, if_neg hfull, h, Nat.lt_of_le_of_ne h.le hne⟩

/-- **`enqueue` appends**, as long as the buffer fits. -/
theorem enqueue_spec (h : Holds q l) (r : ρ) (hfits : q.Fits) :
    ∃ q', q.enqueue r = .ok q' ∧ Holds q' (l ++ [r]) := by
  obtain ⟨q₁, hrun, h₁, hlt⟩ := makeRoom_spec h hfits
  have hpos := h₁.pos
  have hend : q₁.end_.toNat < q₁.requests.length := by
    rw [h₁.end_, h₁.size]
    exact Nat.mod_lt _ hpos
  have hcount : (q₁.count + 1).toNat = l.length + 1 := by
    rw [UInt32.toNat_add, h₁.count]
    exact Nat.mod_eq_of_lt (Nat.lt_of_le_of_lt hlt q₁.size.toNat_lt)
  refine ⟨{ q₁ with
    requests := q₁.requests.set q₁.end_.toNat (some r)
    end_ := (q₁.end_ + 1) % q₁.size
    count := q₁.count + 1 }, ?_, ?_⟩
  · unfold enqueue
    rw [hrun]
    simp only [bind, Except.bind]
    rw [write_eq hend]
  · exact
      { size := by rw [List.length_set]; exact h₁.size
        start_lt := h₁.start_lt
        count := by rw [List.length_append]; exact hcount
        le := by rw [List.length_append]; exact hlt
        end_ := by
          rw [List.length_append, ← Nat.add_assoc]
          exact next_slot h₁.end_ hpos
        slots := fun i r' hr' => by
          show (q₁.requests.set q₁.end_.toNat (some r))[_]? = _
          rw [h₁.end_]
          by_cases hi : i = l.length
          · subst hi
            have hr : r = r' := by simpa using hr'
            rw [List.getElem?_set_self (by rw [← h₁.end_]; exact hend), hr]
          · have hlt' : i < l.length := by
              have := (List.getElem?_eq_some_iff.mp hr').1
              rw [List.length_append, List.length_singleton] at this
              omega
            rw [List.getElem?_append_left hlt'] at hr'
            -- the new request does not go over one that is there
            have hne : (q₁.start.toNat + l.length) % q₁.size.toNat
                ≠ (q₁.start.toNat + i) % q₁.size.toNat := fun he =>
              hi (slot_inj hlt (by omega) he).symm
            rw [List.getElem?_set_ne hne]
            exact h₁.slots i r' hr' }

/-- **A call of `enqueue` that returns has appended.** -/
theorem enqueue_ok (h : Holds q l) (hrun : q.enqueue r = .ok q') : Holds q' (l ++ [r]) := by
  by_cases hfits : q.Fits
  · obtain ⟨q₁, hrun₁, h₁⟩ := enqueue_spec h r hfits
    rw [hrun] at hrun₁
    cases hrun₁
    exact h₁
  · obtain ⟨hfull, hover⟩ := not_or.mp hfits
    have hcount : q.count.toNat = q.size.toNat := by
      refine Nat.le_antisymm (h.count ▸ h.le) ?_
      exact UInt32.le_iff_toNat_le.mp (UInt32.not_lt.mp hfull)
    cases hroom : q.makeRoom with
    | error e => simp [enqueue, hroom, bind, Except.bind] at hrun
    | ok q₁ =>
      rw [makeRoom, if_pos (UInt32.toNat_inj.mp hcount)] at hroom
      exact (enlargeRequestQueue_overflow h (h.count.symm.trans hcount) (not_lt.mp hover) q₁
        hroom).elim

/-- **`dequeue` returns NULL from an empty queue.** -/
theorem dequeue_nil (h : Holds q []) : q.dequeue = .ok (none, q) := by
  have hzero : q.count = 0 := UInt32.toNat_inj.mp h.count
  unfold dequeue
  rw [if_neg (by rw [hzero]; exact UInt32.lt_irrefl _)]

/-- **`dequeue` removes and returns the oldest request.** -/
theorem dequeue_cons (h : Holds q (r :: l)) :
    ∃ q', q.dequeue = .ok (some r, q') ∧ Holds q' l := by
  have hpos := h.pos
  have hcount : q.count.toNat = l.length + 1 := h.count
  have hle := h.le
  rw [List.length_cons] at hle
  have hfirst : q.requests[q.start.toNat]? = some (some r) := by
    have h0 := h.slots 0 r rfl
    rwa [Nat.add_zero, Nat.mod_eq_of_lt h.start_lt] at h0
  have hone : (1 : UInt32) ≤ q.count := by
    rw [UInt32.le_iff_toNat_le, hcount]
    exact Nat.succ_le_succ (Nat.zero_le _)
  have hpred : (q.count - 1).toNat = l.length := by
    rw [UInt32.toNat_sub_of_le _ _ hone, hcount]
    rfl
  have hstart : ((q.start + 1) % q.size).toNat = (q.start.toNat + 1) % q.size.toNat :=
    next_slot (Nat.mod_eq_of_lt h.start_lt).symm hpos
  -- slot `n` of the rest is slot `n + 1` of the whole
  have hround : ∀ n, ((q.start.toNat + 1) % q.size.toNat + n) % q.size.toNat
      = (q.start.toNat + (n + 1)) % q.size.toNat := fun n => by
    rw [Nat.mod_add_mod, Nat.add_assoc, Nat.add_comm 1 n]
  refine ⟨{ q with start := (q.start + 1) % q.size, count := q.count - 1 }, ?_, ?_⟩
  · have hgt : q.count > 0 := by
      rw [gt_iff_lt, UInt32.lt_iff_toNat_lt, hcount]
      exact Nat.succ_pos _
    unfold dequeue
    rw [if_pos hgt, read_eq hfirst]
    rfl
  · exact
      { size := h.size
        start_lt := by
          show ((q.start + 1) % q.size).toNat < q.size.toNat
          rw [hstart]
          exact Nat.mod_lt _ hpos
        count := hpred
        le := by
          show l.length ≤ q.size.toNat
          omega
        end_ := by
          show q.end_.toNat = (((q.start + 1) % q.size).toNat + l.length) % q.size.toNat
          rw [hstart, hround, h.end_, List.length_cons]
        slots := fun i r' hr' => by
          show q.requests[(((q.start + 1) % q.size).toNat + i) % q.size.toNat]? = some (some r')
          rw [hstart, hround]
          exact h.slots (i + 1) r' hr' }

/-! ## Sequences of operations -/

/-- A call on a queue. -/
inductive Operation (ρ : Type) where
  | enqueue (request : ρ)
  | dequeue
deriving DecidableEq

/-- A call on the ring buffer. The second component lists what the `dequeue` calls returned. -/
def operate (s : RequestQueue ρ × List (Option ρ)) :
    Operation ρ → Option (RequestQueue ρ × List (Option ρ))
  | .enqueue request =>
    match s.1.enqueue request with
    | .ok q => some (q, s.2)
    | .error _ => none
  | .dequeue =>
    match s.1.dequeue with
    | .ok (answer, q) => some (q, s.2 ++ [answer])
    | .error _ => none

/-- A call on a plain list: `enqueue` appends and `dequeue` takes the head. -/
def fifo (s : List ρ × List (Option ρ)) : Operation ρ → List ρ × List (Option ρ)
  | .enqueue request => (s.1 ++ [request], s.2)
  | .dequeue => (s.1.tail, s.2 ++ [s.1.head?])

/-- **One call is simulated** by the list, unless the capacity is too large to be doubled. -/
theorem operate_spec {s : RequestQueue ρ × List (Option ρ)} {b : List ρ × List (Option ρ)}
    (h : Holds s.1 b.1 ∧ s.2 = b.2) (hsize : s.1.size.toNat < 2 ^ 31) (a : Operation ρ) :
    ∃ s', operate s a = some s' ∧ Holds s'.1 (fifo b a).1 ∧ s'.2 = (fifo b a).2 := by
  obtain ⟨q, answers⟩ := s
  obtain ⟨l, answers'⟩ := b
  obtain ⟨h, rfl⟩ : Holds q l ∧ answers = answers' := h
  cases a with
  | enqueue r =>
    have hfits : q.Fits := Or.inr (by simp only at hsize; omega)
    obtain ⟨q', hrun, h'⟩ := enqueue_spec h r hfits
    exact ⟨(q', answers), by simp only [operate, hrun], h', rfl⟩
  | dequeue =>
    cases l with
    | nil => exact ⟨(q, answers ++ [none]), by simp only [operate, dequeue_nil h], h, rfl⟩
    | cons r l =>
      obtain ⟨q', hrun, h'⟩ := dequeue_cons h
      exact ⟨(q', answers ++ [some r]), by simp only [operate, hrun], h', rfl⟩

/--
**`RequestQueue` is a first-in first-out queue.**

As long as the capacity stays below `2 ^ 31`, any calls on a new ring buffer return what
they return on a plain list, and the buffer holds that list. No index leaves the array, and
`start`, `count` and `end` describe a segment of it.
-/
theorem operations_fifo {initialSize : UInt32} (h : 1 ≤ initialSize.toNat)
    (as : List (Operation ρ)) (hsize : AllSteps operate (fun s _ => s.1.size.toNat < 2 ^ 31)
      (new initialSize, []) as) :
    ∃ q : RequestQueue ρ, run operate (new initialSize, []) as
        = some (q, (as.foldl fifo ([], [])).2) ∧
      q.toList = (as.foldl fifo ([], [])).1 ∧ q.requests.length = q.size.toNat ∧
      q.start < q.size ∧ q.count ≤ q.size ∧
      q.end_.toNat = (q.start.toNat + q.count.toNat) % q.size.toNat := by
  have hinit : Holds (new initialSize : RequestQueue ρ) ([] : List ρ) ∧
      ([] : List (Option ρ)) = [] := ⟨holds_new h, rfl⟩
  obtain ⟨⟨q, answers⟩, hrun, hq, hanswers⟩ := run_simulates
    (fun (s : RequestQueue ρ × List (Option ρ)) (b : List ρ × List (Option ρ)) =>
      Holds s.1 b.1 ∧ s.2 = b.2) fifo (fun s b a hs hok => operate_spec hs hok a) as
    (new initialSize, []) ([], []) hsize hinit
  simp only at hq hanswers
  refine ⟨q, by rw [hrun, hanswers], hq.toList_eq, hq.size, ?_, ?_, ?_⟩
  · exact UInt32.lt_iff_toNat_lt.mpr hq.start_lt
  · exact UInt32.le_iff_toNat_le.mpr (hq.count.symm ▸ hq.le)
  · rw [hq.count]
    exact hq.end_

/-- A buffer of capacity 1, enlarged while its start is at 0 and again while it is at 1. -/
theorem operations_fifo_one :
    ∃ q : RequestQueue Nat,
      run operate (new 1, []) [.enqueue 1, .enqueue 2, .dequeue, .enqueue 3, .enqueue 4, .dequeue]
        = some (q, [some 1, some 2]) ∧
      q.toList = [3, 4] ∧ q.requests.length = q.size.toNat ∧ q.start < q.size ∧ q.count ≤ q.size ∧
      q.end_.toNat = (q.start.toNat + q.count.toNat) % q.size.toNat :=
  operations_fifo (by decide)
    [.enqueue 1, .enqueue 2, .dequeue, .enqueue 3, .enqueue 4, .dequeue] (by decide +kernel)

end RequestQueue

end AttentionBroker
