import AttentionBroker.Infra.Transition
import AttentionBroker.Hasher.HashableString

/-!
# What a handle depends on

The string that a call digests determines the parts of the call, if none of them has the joining
character (`parts_iff`). It does not depend on the calls before, except that `composite_hash`
without elements digests what the last call has left in the buffer (`history_independent_iff`).
-/

namespace AttentionBroker

open Infra

namespace ExpressionHasher

namespace Call

variable {md5 : List UInt8 → Buffer 16} {c d : Call} {s s' : Statics} {text : CString}

/-- The strings that a call is about. -/
def parts : Call → List CString
  | namedTypeHash name => [name]
  | terminalHash type name => [type, name]
  | compositeHash elements => elements.toList
  | expressionHash typeHash elements => typeHash :: elements.toList

/-- The string that a call passes to `compute_hash`. -/
def passed (c : Call) (s : Statics) : Except HashFault CString := (c.input s).map Prod.fst

/-- The handle that a call returns. -/
def returned (md5 : List UInt8 → Buffer 16) (c : Call) (s : Statics) : Except HashFault CString :=
  (c.hash md5 s).map Prod.fst

/-- **A call returns the handle of the string that it passes.** -/
theorem returned_eq (md5 : List UInt8 → Buffer 16) (c : Call) (s : Statics) :
    c.returned md5 s = (c.passed s).map fun text => handle (md5 text.bytes) := by
  have hbind : c.hash md5 s = c.input s >>= fun p => computeHash md5 p.1 p.2 := rfl
  rw [returned, passed, hbind]
  cases c.input s with
  | error f => rfl
  | ok p =>
    obtain ⟨hash, hok⟩ := computeHash_ok md5 p.1 p.2
    change (computeHash md5 p.1 p.2).map Prod.fst = _
    rw [hok]
    rfl

/-! ## The parts of a call -/

/-- There is a part, none has the joining character, and joined they fit the buffer. -/
structure Joinable (parts : List CString) : Prop where
  ne_nil : parts ≠ []
  separated : ∀ e ∈ parts, joiningChar ∉ e.bytes
  size : CString.joinedSize parts ≤ maxHashableStringSize

theorem writeParts_joinable {parts : List CString} (h : Joinable parts) :
    writeParts parts = .ok (joined parts) := if_pos h.size

/-- The number of parts is bounded by their joined size. -/
theorem length_le_joinedSize (parts : List CString) : parts.length ≤ CString.joinedSize parts := by
  induction parts with
  | nil => exact Nat.le_refl _
  | cons e es ih =>
    rw [List.length_cons, CString.joinedSize_cons]
    omega

theorem Joinable.not_empty (h : Joinable c.parts) : ¬ c.Empty := by
  intro he
  obtain ⟨elements, rfl, hnil⟩ := he.exists
  exact h.ne_nil hnil

/-- **A call with parts that can be joined passes them joined**, if it accepts them. -/
theorem passed_joinable (h : Joinable c.parts) (hp : c.PassesChecks) (s : Statics) :
    c.passed s = .ok (joined c.parts) := by
  rw [passed, input_eq h.not_empty]
  cases c with
  | namedTypeHash name => rfl
  | terminalHash type name => exact (if_pos hp).trans (writeParts_joinable h)
  | compositeHash elements => exact (if_pos hp).trans (writeParts_joinable h)
  | expressionHash typeHash elements =>
    have hn : elements.nelements + 1 < 2 ^ 32 := by
      have hle := length_le_joinedSize (typeHash :: elements.toList)
      have hsize : CString.joinedSize (typeHash :: elements.toList) ≤ 100000 := h.size
      rw [List.length_cons] at hle
      rw [Elements.nelements]
      omega
    rw [outcome, if_pos hn]
    exact (if_pos (hp hn)).trans (writeParts_joinable h)

theorem passed_ok_passesChecks (h : c.passed s = .ok text) : c.PassesChecks := by
  by_contra hp
  have hexit : ∃ m, c.hash (fun _ => 0) s = .error (.exit m) := exits_iff.mpr hp
  obtain ⟨m, hm⟩ := hexit
  rw [passed, hash_error_iff.mp hm] at h
  cases h

/--
**The string that a call digests determines the parts of the call.**

Splitting it at the joining character gives them back. `composite_hash` joins its elements, and
`expression_hash` its type hash and its elements.
-/
theorem parts_iff {c d : Call} (hc : Joinable c.parts) (hd : Joinable d.parts) (s₁ s₂ : Statics) :
    (c.PassesChecks → ∃ text, c.passed s₁ = .ok text) ∧
      ∀ text₁ text₂, c.passed s₁ = .ok text₁ → d.passed s₂ = .ok text₂ →
        text₁.bytes.splitOn joiningChar = c.parts.map (·.bytes) ∧
          (text₁ = text₂ ↔ c.parts = d.parts) := by
  refine ⟨fun hp => ⟨_, passed_joinable hc hp s₁⟩, fun text₁ text₂ h₁ h₂ => ?_⟩
  have hj₁ := passed_joinable hc (passed_ok_passesChecks h₁) s₁
  have hj₂ := passed_joinable hd (passed_ok_passesChecks h₂) s₂
  obtain rfl := Except.ok.inj (hj₁.symm.trans h₁)
  obtain rfl := Except.ok.inj (hj₂.symm.trans h₂)
  exact ⟨CString.splitOn_join _ hc.ne_nil hc.separated,
    CString.join_inj hc.ne_nil hd.ne_nil hc.separated hd.separated⟩

/-- The elements `"a"` and `"b"`. -/
def compositeOfAB : Call := compositeHash ⟨[letterA, letterB], by decide⟩

/-- The elements `"b"` and `""`. -/
def compositeOfB : Call := compositeHash ⟨[letterB, .empty], by decide⟩

theorem parts_iff_a_b :
    (compositeOfAB.PassesChecks → ∃ text, compositeOfAB.passed .init = .ok text) ∧
      ∀ text₁ text₂, compositeOfAB.passed .init = .ok text₁ →
        compositeOfB.passed .init = .ok text₂ →
          text₁.bytes.splitOn joiningChar = compositeOfAB.parts.map (·.bytes) ∧
            (text₁ = text₂ ↔ compositeOfAB.parts = compositeOfB.parts) :=
  parts_iff ⟨by decide, by decide, by decide⟩ ⟨by decide, by decide, by decide⟩ .init .init

/-! ## Earlier calls -/

theorem passHashable_ok {written : Except Nat (Buffer maxHashableStringSize)}
    (h : passHashable written s = .ok (text, s')) :
    s'.hashableString.readString 0 = .ok text := by
  obtain ⟨hashableString, -, h⟩ := bind_eq_ok.mp h
  obtain ⟨input, hread, h⟩ := bind_eq_ok.mp h
  cases h
  exact mapError_eq_ok.mp hread

/-- A call that builds a string leaves it in the buffer. -/
theorem input_ok (hc : ∀ name, c ≠ namedTypeHash name) (h : c.input s = .ok (text, s')) :
    s'.hashableString.readString 0 = .ok text := by
  have hcomposite : ∀ elements : Elements, compositeInput elements s = .ok (text, s') →
      s'.hashableString.readString 0 = .ok text := by
    intro elements h
    rw [compositeInput_checked] at h
    split at h
    · exact passHashable_ok h
    · cases h
  cases c with
  | namedTypeHash name => exact absurd rfl (hc name)
  | terminalHash type name =>
    rw [input, terminalInput] at h
    split at h
    · cases h
    · exact passHashable_ok h
  | compositeHash elements => exact hcomposite elements h
  | expressionHash typeHash elements =>
    rw [input, expressionInput] at h
    split at h
    · exact hcomposite _ h
    · cases h

/-- `compute_hash` does not change the buffer. -/
theorem hash_of_input (md5 : List UInt8 → Buffer 16) (h : c.input s = .ok (text, s')) :
    ∃ s₁, c.hash md5 s = .ok (handle (md5 text.bytes), s₁) ∧
      s₁.hashableString = s'.hashableString := by
  obtain ⟨hash, hok⟩ := computeHash_ok md5 text s'
  exact ⟨_, bind_eq_ok.mpr ⟨(text, s'), h, hok⟩, rfl⟩

theorem passed_empty (hc : c.Empty) (s : Statics) :
    c.passed s = (s.hashableString.readString 0).mapError .read := by
  rw [passed, input_empty hc]
  change Except.map Prod.fst ((s.hashableString.readString 0).mapError HashFault.read >>= _) = _
  cases s.hashableString.readString 0 with
  | error i => rfl
  | ok text => rfl

/-- **Without elements `composite_hash` returns the handle of the last call that built a string.** -/
theorem empty_returns_last (hc : ∀ name, c ≠ namedTypeHash name) (hd : d.Empty)
    {result : CString} (h : c.hash md5 s = .ok (result, s')) : d.returned md5 s' = .ok result := by
  obtain ⟨⟨text, s₁⟩, hinput, -⟩ := bind_eq_ok.mp h
  obtain ⟨s₂, hhash, hbuffer⟩ := hash_of_input md5 hinput
  obtain ⟨rfl, rfl⟩ := Prod.mk.inj (Except.ok.inj (h.symm.trans hhash))
  rw [returned_eq, passed_empty hd, hbuffer, input_ok hc hinput]
  rfl

/-- After any two histories the call passes the same string and returns the same handle. -/
def HistoryIndependent (md5 : List UInt8 → Buffer 16) (c : Call) : Prop :=
  ∀ h₁ h₂ s₁ s₂, run (step md5) .init h₁ = some s₁ → run (step md5) .init h₂ = some s₂ →
    c.passed s₁ = c.passed s₂ ∧ c.returned md5 s₁ = c.returned md5 s₂

theorem passed_a_b (s : Statics) :
    (terminalHash letterA letterB).passed s = .ok (joined [letterA, letterB]) :=
  (input_eq id s).trans (by decide)

/-- Before any call the buffer holds the empty string. -/
theorem passed_empty_init (hd : d.Empty) : d.passed .init = .ok .empty := by
  have hholds : Statics.init.hashableString.Holds 0 (CString.empty.bytes ++ [0]) :=
    ⟨dif_pos (by decide), trivial⟩
  rw [passed_empty hd, Buffer.readString_of_holds hholds]
  rfl

/-- After `terminal_hash("a", "b")` it holds `"a b"`. -/
theorem run_a_b (md5 : List UInt8 → Buffer 16) (hd : d.Empty) :
    ∃ s, run (step md5) .init [terminalHash letterA letterB] = some s ∧
      d.passed s = .ok (joined [letterA, letterB]) := by
  obtain ⟨p, hp, htext⟩ : ∃ p, (terminalHash letterA letterB).input .init = .ok p ∧
      p.1 = joined [letterA, letterB] := by
    have h := passed_a_b .init
    rw [passed] at h
    cases hinput : (terminalHash letterA letterB).input .init with
    | error f =>
      rw [hinput] at h
      cases h
    | ok p =>
      rw [hinput] at h
      exact ⟨p, rfl, Except.ok.inj h⟩
  obtain ⟨s, hhash, hbuffer⟩ := hash_of_input md5 hp
  have hstep : step md5 .init (terminalHash letterA letterB) = some s := by
    rw [step, hhash]
    rfl
  refine ⟨s, run_of_step hstep, ?_⟩
  rw [passed_empty hd, hbuffer, input_ok (fun name h => by cases h) hp, htext]
  rfl

/--
**A call does not depend on the calls before it, unless it is `composite_hash` without elements.**
-/
theorem history_independent_iff (md5 : List UInt8 → Buffer 16) (c : Call) :
    HistoryIndependent md5 c ↔ ¬ c.Empty := by
  constructor
  · intro h he
    obtain ⟨s, hrun, hs⟩ := run_a_b md5 he
    have hsame := (h [] _ _ s rfl hrun).1
    rw [passed_empty_init he, hs] at hsame
    exact absurd hsame (by decide)
  · intro hc h₁ h₂ s₁ s₂ _ _
    have hsame : c.passed s₁ = c.passed s₂ := (input_eq hc s₁).trans (input_eq hc s₂).symm
    exact ⟨hsame, by rw [returned_eq, returned_eq, hsame]⟩

/-- The call of `composite_hash` without elements. -/
def emptyComposite : Call := compositeHash ⟨[], by decide⟩

/--
A handle that depends on the history.

Without any call before it the call returns the digest of the empty string, and after
`terminal_hash("a", "b")` the digest of `"a b"`.
-/
theorem empty_composite_depends :
    emptyComposite.PassesChecks ∧ emptyComposite.Fits ∧
      emptyComposite.returned md5Sample .init = .ok (handle (md5Sample [])) ∧
      (∃ s, run (step md5Sample) .init [terminalHash letterA letterB] = some s ∧
        emptyComposite.returned md5Sample s = .ok (handle (md5Sample [0x61, 0x20, 0x62]))) ∧
      handle (md5Sample []) ≠ handle (md5Sample [0x61, 0x20, 0x62]) := by
  have he : emptyComposite.Empty := rfl
  obtain ⟨s, hrun, hs⟩ := run_a_b md5Sample he
  refine ⟨he.passesChecks, he.fits, ?_, ⟨s, hrun, ?_⟩, by decide⟩
  · rw [returned_eq, passed_empty_init he]
    rfl
  · rw [returned_eq, hs]
    rfl

end Call

end ExpressionHasher

end AttentionBroker
