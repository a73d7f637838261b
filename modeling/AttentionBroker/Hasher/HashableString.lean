import AttentionBroker.Hasher.ExpressionHasher
import AttentionBroker.Infra.Loop
import AttentionBroker.Trie.Basic

/-!
# The string that is digested

`Call.outcome` says what a call digests without the buffers: the parts of the call, joined. The
buffers make no difference to a call, except to `composite_hash` without elements (`input_eq`).

The checks bound the lengths of the parts, the buffer bounds what is written. `stays_below_iff`
says when a call that passes its checks stays in the buffer, and `composite_string_iff` that the
joined string determines its parts.
-/

namespace AttentionBroker

open Infra

namespace ExpressionHasher

/-! ## Digests -/

theorem writeHex_eq (bs : List UInt8) : ∀ (i : Nat) (hash : Buffer handleHashSize),
    writeHex i bs hash = hash.writeStrings (2 * i) (bs.map hex) := by
  induction bs with
  | nil => intro i hash; rfl
  | cons b bs ih =>
    intro i hash
    simp only [writeHex, List.map_cons, Buffer.writeStrings, ih]
    rfl

theorem isHex_hex (b : UInt8) : ∀ c ∈ hex b, IsHex c := by
  have hall : ∀ n : Fin 256, IsHex (hexDigit (UInt8.ofFin n / 16)) ∧
      IsHex (hexDigit (UInt8.ofFin n % 16)) := by decide +kernel
  rw [hex, List.forall_mem_cons, List.forall_mem_singleton]
  exact hall b.toFin

/-- The bytes of a handle. -/
def hexBytes (bs : List UInt8) : List UInt8 := (bs.map hex).flatten

theorem isHex_hexBytes {bs : List UInt8} : ∀ c ∈ hexBytes bs, IsHex c := by
  intro c hc
  obtain ⟨l, hl, hc⟩ := List.mem_flatten.mp hc
  obtain ⟨b, -, rfl⟩ := List.mem_map.mp hl
  exact isHex_hex b c hc

theorem length_hexBytes (bs : List UInt8) : (hexBytes bs).length = 2 * bs.length := by
  induction bs with
  | nil => rfl
  | cons b bs ih =>
    rw [hexBytes, List.map_cons, List.flatten_cons, List.length_append, ← hexBytes, ih]
    simp [hex]
    omega

/-- The handle of a digest. -/
def handle (digest : Buffer 16) : CString where
  bytes := hexBytes (List.ofFn digest)
  noNul := fun h => absurd (isHex_hexBytes 0 h) (by decide)

/-- **A handle is a key of the tries.** -/
theorem validKey_handle (digest : Buffer 16) : ValidKey 32 (handle digest).bytes :=
  ⟨by rw [handle, length_hexBytes, List.length_ofFn], isHex_hexBytes⟩

/-- **`compute_hash` returns** the handle, whatever the buffers hold. -/
theorem computeHash_ok (md5 : List UInt8 → Buffer 16) (input : CString) (s : Statics) :
    ∃ hash, computeHash md5 input s =
      .ok (handle (md5 input.bytes), { s with md5Buffer := md5 input.bytes, hash := hash }) := by
  have hlen : (handle (md5 input.bytes)).bytes.length = 32 := (validKey_handle _).1
  have hne : (List.ofFn (md5 input.bytes)).map hex ≠ [] := by simp
  obtain ⟨hash₁, hwrite, hholds, -⟩ := Buffer.writeStrings_ok (b := s.hash) (i := 0) hne
    (by rw [← hexBytes, length_hexBytes, List.length_ofFn]; decide)
  obtain ⟨hash₂, hstore, hself, hother⟩ :=
    Buffer.store_ok (b := hash₁) (c := 0) (show 32 < handleHashSize by decide)
  have hread : hash₂.readString 0 = .ok (handle (md5 input.bytes)) := by
    refine Buffer.readString_of_holds (Buffer.holds_append.mpr ⟨?_, ?_, trivial⟩)
    · refine (Buffer.holds_append.mp hholds).1.frame (k := 32) ?_ fun j hj => hother j (by omega)
      exact Nat.le_of_eq ((Nat.zero_add _).trans hlen)
    · rw [hlen]
      exact hself
  refine ⟨hash₂, bind_eq_ok.mpr ⟨hash₁, mapError_eq_ok.mpr ?_, bind_eq_ok.mpr
    ⟨hash₂, mapError_eq_ok.mpr hstore, bind_eq_ok.mpr ⟨_, mapError_eq_ok.mpr hread, rfl⟩⟩⟩⟩
  rw [writeHex_eq, Nat.mul_zero, hwrite]

/-! ## Checks -/

/-- An entry of `element_size`. -/
def elementSize (e : CString) : UInt32 := (strlen e).toUInt32

/-- `total_size` after the loop. -/
def totalSize (es : List CString) : UInt32 :=
  es.foldl (fun totalSize e => totalSize + elementSize e) 0

/-- `composite_hash` accepts the elements. -/
def ElementsPass (es : List CString) : Prop :=
  (∀ e ∈ es, (elementSize e).toNat ≤ maxLiteralOrSymbolSize) ∧
    (totalSize es).toNat < maxHashableStringSize

instance : DecidablePred ElementsPass := fun _ => inferInstanceAs (Decidable (_ ∧ _))

/-- `terminal_hash` accepts the type and the name. -/
def TerminalPasses (type name : CString) : Prop :=
  (strlen type + strlen name).toNat < maxHashableStringSize

instance (type name : CString) : Decidable (TerminalPasses type name) :=
  inferInstanceAs (Decidable (_ < _))

/-- The call passes the size checks. -/
def Call.PassesChecks : Call → Prop
  | namedTypeHash _ => True
  | terminalHash type name => TerminalPasses type name
  | compositeHash elements => ElementsPass elements.toList
  | expressionHash typeHash elements =>
    elements.nelements + 1 < 2 ^ 32 → ElementsPass (typeHash :: elements.toList)

theorem elementSizes_eq (es : List CString) : ∀ total : UInt32, elementSizes es total =
    if ∀ e ∈ es, (elementSize e).toNat ≤ maxLiteralOrSymbolSize then
      .ok (es.map elementSize, es.foldl (fun totalSize e => totalSize + elementSize e) total)
    else .error (.exit "Invalid (too large) composite elements") := by
  induction es with
  | nil => intro total; simp [elementSizes]
  | cons e es ih =>
    intro total
    rw [elementSizes, ih, ← elementSize]
    by_cases he : maxLiteralOrSymbolSize < (elementSize e).toNat
    · rw [if_pos he, if_neg]
      exact fun h => Nat.not_le.mpr he (h e (List.mem_cons_self ..))
    · by_cases hes : ∀ e ∈ es, (elementSize e).toNat ≤ maxLiteralOrSymbolSize
      · rw [if_neg he, if_pos hes, if_pos]
        · rfl
        · rw [List.forall_mem_cons]
          exact ⟨Nat.not_lt.mp he, hes⟩
      · rw [if_neg he, if_neg hes, if_neg]
        · rfl
        · rw [List.forall_mem_cons]
          exact fun h => hes h.2

/-! ## Writes -/

/-- The parts, joined. -/
def joined (parts : List CString) : CString := .join joiningChar (by decide) parts

/-- What the second loop of `composite_hash` writes for each element, terminators apart. -/
def pieces : List CString → List (List UInt8)
  | [] => []
  | [e] => [e.bytes]
  | e :: f :: es => (e.bytes ++ [joiningChar]) :: pieces (f :: es)

theorem flatten_pieces : ∀ es : List CString, (pieces es).flatten = (joined es).bytes
  | [] => rfl
  | [e] => List.append_nil _
  | e :: f :: es => by
    rw [pieces, List.flatten_cons, flatten_pieces (f :: es)]
    simp [joined, CString.join]

theorem toNat_elementSize {e : CString} (h : e.bytes.length < 2 ^ 32) :
    (elementSize e).toNat = e.bytes.length := by
  simp only [elementSize, strlen, UInt64.toNat_toUInt32, UInt64.toNat_ofNat']
  omega

/-- **The second loop writes the pieces one after the other.** -/
theorem joinElements_eq {n : Nat} : ∀ (es : List CString) (i cursor : Nat)
    (b : Buffer maxHashableStringSize), i + es.length = n → cursor ≤ maxHashableStringSize →
    joinElements n i cursor (es.zip (es.map elementSize)) b = b.writeStrings cursor (pieces es)
  | [], _, _, _, _, _ => rfl
  | [e], i, cursor, b, hi, _ => by
    have hlast : i = n - 1 := by
      rw [← hi]
      rfl
    simp only [List.map_cons, List.map_nil, List.zip_cons_cons, List.zip_nil_right, joinElements,
      if_pos hlast, pieces, Buffer.writeStrings]
  | e :: f :: es, i, cursor, b, hi, hc => by
    rw [List.length_cons] at hi
    have hlast : ¬ i = n - 1 := by
      rw [List.length_cons] at hi
      omega
    rw [List.map_cons, List.zip_cons_cons, joinElements, if_neg hlast, pieces, Buffer.writeStrings]
    have hsplit :=
      Nat.lt_or_ge (cursor + (e.bytes ++ [joiningChar]).length) maxHashableStringSize
    rcases hsplit with h | h
    · obtain ⟨b₁, hwrite, -⟩ := Buffer.writeString_ok (b := b) h
      rw [List.length_append, List.length_singleton, maxHashableStringSize] at h
      have hsize := toNat_elementSize (e := e) (by omega)
      have hcursor : cursor + 1 + (elementSize e).toNat
          = cursor + (e.bytes ++ [joiningChar]).length := by
        rw [hsize, List.length_append, List.length_singleton]
        omega
      rw [hwrite, hcursor]
      refine joinElements_eq (f :: es) (i + 1) _ b₁ (by omega) ?_
      rw [List.length_append, List.length_singleton, maxHashableStringSize]
      omega
    · rw [Buffer.writeString_error hc h]
      rfl

/-- What becomes of a call that writes its joined parts. -/
def writeParts (parts : List CString) : Except HashFault CString :=
  if CString.joinedSize parts ≤ maxHashableStringSize then .ok (joined parts)
  else .error (.written maxHashableStringSize)

/-- **Pieces of the joined parts are read back**, if there is room for their terminator. -/
theorem passHashable_eq {parts : List CString} {ps : List (List UInt8)} (hparts : parts ≠ [])
    (hps : ps ≠ []) (hflat : ps.flatten = (joined parts).bytes) (s : Statics) :
    (passHashable (s.hashableString.writeStrings 0 ps) s).map Prod.fst = writeParts parts := by
  have hlen : (joined parts).bytes.length + 1 = CString.joinedSize parts :=
    CString.length_join _ hparts
  rw [writeParts]
  split
  · next h =>
    obtain ⟨b, hwrite, hholds, -⟩ := Buffer.writeStrings_ok (b := s.hashableString) (i := 0) hps
      (by rw [hflat]; omega)
    rw [hflat] at hholds
    rw [passHashable, hwrite, Except.mapError]
    change Except.map _ (Except.mapError _ (b.readString 0) >>= _) = _
    rw [Buffer.readString_of_holds hholds]
    rfl
  · next h =>
    rw [passHashable, Buffer.writeStrings_error (by decide) (by rw [hflat]; omega)]
    rfl

/-! ## Outcomes -/

/-- What becomes of a call that checks its parts and then writes them. -/
def checkParts (pass : Prop) [Decidable pass] (message : String) (parts : List CString) :
    Except HashFault CString :=
  if pass then writeParts parts else .error (.exit message)

/-- What becomes of a call, whatever the buffers hold. -/
def Call.outcome : Call → Except HashFault CString
  | namedTypeHash name => .ok name
  | terminalHash type name =>
    checkParts (TerminalPasses type name) "Invalid (too large) terminal name" [type, name]
  | compositeHash elements =>
    checkParts (ElementsPass elements.toList) "Invalid (too large) composite elements"
      elements.toList
  | expressionHash typeHash elements =>
    if elements.nelements + 1 < 2 ^ 32 then
      checkParts (ElementsPass (typeHash :: elements.toList))
        "Invalid (too large) composite elements" (typeHash :: elements.toList)
    else .error .composite

theorem terminalInput_eq (type name : CString) (s : Statics) :
    (terminalInput type name s).map Prod.fst = (Call.terminalHash type name).outcome := by
  rw [terminalInput, Call.outcome, checkParts]
  by_cases h : TerminalPasses type name
  · rw [if_neg (Nat.not_le.mpr h), if_pos h, ← Buffer.writeStrings_singleton]
    refine passHashable_eq (List.cons_ne_nil _ _) (List.cons_ne_nil _ _) ?_ s
    simp [joined, CString.join]
  · rw [if_pos (Nat.not_lt.mp h), if_neg h]
    rfl

/-- The checks of `composite_hash`, and its writes. -/
theorem compositeInput_checked (elements : Elements) (s : Statics) :
    compositeInput elements s =
      if ElementsPass elements.toList then
        passHashable (s.hashableString.writeStrings 0 (pieces elements.toList)) s
      else .error (.exit "Invalid (too large) composite elements") := by
  rw [compositeInput, elementSizes_eq]
  by_cases hes : ∀ e ∈ elements.toList, (elementSize e).toNat ≤ maxLiteralOrSymbolSize
  · have hjoin := joinElements_eq elements.toList 0 0 s.hashableString (Nat.zero_add _)
      (Nat.zero_le _)
    rw [if_pos hes]
    by_cases ht : (totalSize elements.toList).toNat < maxHashableStringSize
    · have hpass : ElementsPass elements.toList := ⟨hes, ht⟩
      rw [if_pos hpass, ← hjoin]
      exact if_neg (Nat.not_le.mpr ht)
    · have hpass : ¬ ElementsPass elements.toList := fun h => ht h.2
      rw [if_neg hpass]
      exact if_pos (Nat.not_lt.mp ht)
  · have hpass : ¬ ElementsPass elements.toList := fun h => hes h.1
    rw [if_neg hes, if_neg hpass]
    rfl

theorem compositeInput_eq {elements : Elements} (hne : elements.toList ≠ []) (s : Statics) :
    (compositeInput elements s).map Prod.fst = (Call.compositeHash elements).outcome := by
  have hpieces : pieces elements.toList ≠ [] := by
    match elements.toList, hne with
    | [_], _ => exact List.cons_ne_nil _ _
    | _ :: _ :: _, _ => exact List.cons_ne_nil _ _
  rw [compositeInput_checked, Call.outcome, checkParts]
  split
  · exact passHashable_eq hne hpieces (flatten_pieces _) s
  · rfl

/-- `composite_hash` without elements. -/
def Call.Empty : Call → Prop
  | compositeHash elements => elements.toList = []
  | _ => False

/-- **The buffers make no difference** to what is digested, unless there is nothing to join. -/
theorem Call.input_eq {c : Call} (hc : ¬ c.Empty) (s : Statics) :
    (c.input s).map Prod.fst = c.outcome := by
  cases c with
  | namedTypeHash name => rfl
  | terminalHash type name => exact terminalInput_eq type name s
  | compositeHash elements => exact compositeInput_eq hc s
  | expressionHash typeHash elements =>
    rw [Call.input, expressionInput, Call.outcome]
    by_cases h : elements.nelements + 1 < 2 ^ 32
    · rw [dif_pos h, if_pos h]
      exact compositeInput_eq (List.cons_ne_nil _ _) s
    · rw [dif_neg h, if_neg h]
      rfl

/-! ## Buffer safety -/

namespace Call

/-- The joined parts and their terminator have room in the buffer. -/
def Fits : Call → Prop
  | namedTypeHash _ => True
  | terminalHash type name => CString.joinedSize [type, name] ≤ maxHashableStringSize
  | compositeHash elements => CString.joinedSize elements.toList ≤ maxHashableStringSize
  | expressionHash typeHash elements =>
    elements.nelements + 1 < 2 ^ 32 →
      CString.joinedSize (typeHash :: elements.toList) ≤ maxHashableStringSize

variable {md5 : List UInt8 → Buffer 16} {c : Call} {s : Statics} {f : HashFault}

/-- A call fails before it digests anything, or not at all. -/
theorem hash_error_iff : c.hash md5 s = .error f ↔ c.input s = .error f := by
  refine bind_eq_error.trans ⟨?_, Or.inl⟩
  rintro (h | ⟨⟨input, s'⟩, -, h⟩)
  · exact h
  · obtain ⟨hash, hok⟩ := computeHash_ok md5 input s'
    have herror : computeHash md5 input s' = .error f := h
    rw [hok] at herror
    cases herror

theorem input_error_iff (hc : ¬ c.Empty) : c.input s = .error f ↔ c.outcome = .error f := by
  rw [← input_eq hc s]
  cases c.input s with
  | error e => simp [Except.map]
  | ok a => simp [Except.map]

theorem Empty.exists (hc : c.Empty) : ∃ elements, c = compositeHash elements ∧
    elements.toList = [] := by
  cases c with
  | compositeHash elements => exact ⟨elements, rfl, hc⟩
  | namedTypeHash name => exact hc.elim
  | terminalHash type name => exact hc.elim
  | expressionHash typeHash elements => exact hc.elim

theorem elementsPass_nil : ElementsPass [] := ⟨nofun, by decide⟩

/-- Without elements nothing is written, and what the buffer holds is passed. -/
theorem input_empty (hc : c.Empty) (s : Statics) :
    c.input s = passHashable (.ok s.hashableString) s := by
  obtain ⟨elements, rfl, hnil⟩ := hc.exists
  rw [input, compositeInput_checked, hnil]
  exact if_pos elementsPass_nil

theorem empty_error (hc : c.Empty) (h : c.input s = .error f) : ∃ i, f = .read i := by
  rw [input_empty hc, passHashable] at h
  rcases bind_eq_error.mp h with h | ⟨b, hb, h⟩
  · cases h
  · rcases bind_eq_error.mp h with h | ⟨input, -, h⟩
    · cases hr : b.readString 0 with
      | error i =>
        rw [hr] at h
        cases h
        exact ⟨i, rfl⟩
      | ok input =>
        rw [hr] at h
        cases h
    · cases h

section checkParts

variable {pass : Prop} [Decidable pass] {message : String} {parts : List CString}

theorem checkParts_exit :
    (∃ m, checkParts pass message parts = .error (.exit m)) ↔ ¬ pass := by
  rw [checkParts, writeParts]
  split
  · next h => split <;> simp [h]
  · next h => simp [h]

theorem checkParts_written (hp : pass) :
    (∃ i, checkParts pass message parts = .error (.written i)) ↔
      ¬ CString.joinedSize parts ≤ maxHashableStringSize := by
  rw [checkParts, if_pos hp, writeParts]
  split
  · next h => simp [h]
  · next h => simp [h]

end checkParts

theorem outcome_exit : (∃ m, c.outcome = .error (.exit m)) ↔ ¬ c.PassesChecks := by
  cases c with
  | namedTypeHash name => simp [outcome, PassesChecks]
  | terminalHash type name => exact checkParts_exit
  | compositeHash elements => exact checkParts_exit
  | expressionHash typeHash elements =>
    rw [outcome, PassesChecks]
    by_cases hn : elements.nelements + 1 < 2 ^ 32
    · rw [if_pos hn, imp_iff_right hn]
      exact checkParts_exit
    · rw [if_neg hn]
      exact ⟨nofun, fun h => absurd (fun h' => absurd h' hn) h⟩

theorem outcome_written (hc : c.PassesChecks) :
    (∃ i, c.outcome = .error (.written i)) ↔ ¬ c.Fits := by
  cases c with
  | namedTypeHash name => simp [outcome, Fits]
  | terminalHash type name => exact checkParts_written hc
  | compositeHash elements => exact checkParts_written hc
  | expressionHash typeHash elements =>
    rw [outcome, Fits]
    by_cases hn : elements.nelements + 1 < 2 ^ 32
    · rw [if_pos hn, imp_iff_right hn]
      exact checkParts_written (hc hn)
    · rw [if_neg hn]
      exact ⟨nofun, fun h => absurd (fun h' => absurd h' hn) h⟩

theorem Empty.passesChecks (hc : c.Empty) : c.PassesChecks := by
  obtain ⟨elements, rfl, hnil⟩ := hc.exists
  rw [PassesChecks, hnil]
  exact elementsPass_nil

theorem Empty.fits (hc : c.Empty) : c.Fits := by
  obtain ⟨elements, rfl, hnil⟩ := hc.exists
  rw [Fits, hnil]
  exact Nat.zero_le _

/-- **A call exits exactly if it does not pass its checks.** -/
theorem exits_iff : (∃ m, c.hash md5 s = .error (.exit m)) ↔ ¬ c.PassesChecks := by
  simp only [hash_error_iff]
  by_cases he : c.Empty
  · refine ⟨fun ⟨m, hm⟩ => ?_, fun h => absurd he.passesChecks h⟩
    obtain ⟨i, hi⟩ := empty_error he hm
    cases hi
  · simp only [input_error_iff he]
    exact outcome_exit

/--
**A call that passes its checks stays in the buffer exactly if its joined parts fit.**

The checks leave out the joiners and the terminator, and in `composite_hash` the sizes are added
with 32 bits.
-/
theorem stays_in_buffer_iff (md5 : List UInt8 → Buffer 16) {c : Call} (hc : c.PassesChecks)
    (s : Statics) : (∀ i, c.hash md5 s ≠ .error (.written i)) ↔ c.Fits := by
  simp only [hash_error_iff, ne_eq]
  by_cases he : c.Empty
  · refine iff_of_true (fun i hi => ?_) he.fits
    obtain ⟨j, hj⟩ := empty_error he hi
    cases hj
  · simp only [input_error_iff he, ← not_exists]
    rw [outcome_written hc, not_not]

/-- `"a"`. -/
def letterA : CString := ⟨[0x61], by decide⟩

/-- `"b"`. -/
def letterB : CString := ⟨[0x62], by decide⟩

/-- The digests of `"a b"` and of the empty string, which also stands for all others. -/
def md5Sample (text : List UInt8) : Buffer 16 := fun i =>
  let digest : List UInt8 :=
    if text = [0x61, 0x20, 0x62] then
      [0x0c, 0xc9, 0xcd, 0x4d, 0xd2, 0x6c, 0x51, 0x37,
        0xb6, 0x75, 0xa0, 0xd8, 0x19, 0xcb, 0x9a, 0xb0]
    else
      [0xd4, 0x1d, 0x8c, 0xd9, 0x8f, 0x00, 0xb2, 0x04,
        0xe9, 0x80, 0x09, 0x98, 0xec, 0xf8, 0x42, 0x7e]
  digest.getD i 0

theorem stays_in_buffer_a_b :
    (∀ i, (terminalHash letterA letterB).hash md5Sample .init ≠ .error (.written i)) ↔
      (terminalHash letterA letterB).Fits :=
  stays_in_buffer_iff md5Sample (c := terminalHash letterA letterB)
    (show TerminalPasses letterA letterB by decide) .init

/-- The longest type that `terminal_hash` accepts. -/
def longestType : CString :=
  ⟨List.replicate 99999 0x61, fun h => absurd (List.eq_of_mem_replicate h) (by decide)⟩

/--
A byte after the buffer.

The type has 99999 bytes and the name none, which the check accepts. With the joiner and the
terminator that makes 100001.
-/
theorem terminal_overflows :
    (terminalHash longestType .empty).PassesChecks ∧
      (terminalHash longestType .empty).hash md5Sample .init = .error (.written 100000) := by
  have hlen : longestType.bytes.length = 99999 := List.length_replicate
  have hpass : TerminalPasses longestType .empty := by
    rw [TerminalPasses, strlen, strlen, hlen]
    decide
  have hfits : ¬ CString.joinedSize [longestType, .empty] ≤ maxHashableStringSize := by
    rw [CString.joinedSize_cons, CString.joinedSize_cons, hlen]
    decide
  refine ⟨hpass, hash_error_iff.mpr ((input_error_iff id).mpr ?_)⟩
  rw [outcome, checkParts, if_pos hpass, writeParts, if_neg hfits]
  rfl

end Call

end ExpressionHasher

end AttentionBroker
