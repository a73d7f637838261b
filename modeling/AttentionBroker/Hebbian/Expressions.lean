import AttentionBroker.Hasher.Handles
import AttentionBroker.Hebbian.Counting

/-!
# Counts of expressions

The atoms of a network are expressions of which it sees only the handles. Lists of expressions are
hashed, in any order and with whatever is left in the static buffers, and the lists of their handles
are correlated. The counts are then those of the expressions.

`key_iff` is the reason: different expressions have different handles as long as MD5 has no
collision among the strings that are digested.
-/

namespace AttentionBroker

open Infra

namespace ExpressionHasher

variable {md5 : List UInt8 → Buffer 16}

/-! ## Digests can be read back -/

/-- The tries read the digits back that `"%02x"` prints. -/
theorem hex_injective : Function.Injective hex := by
  have hall : ∀ n : Fin 256, 16 * (TLB (hexDigit (UInt8.ofFin n / 16))).val
      + (TLB (hexDigit (UInt8.ofFin n % 16))).val = n.val := by decide +kernel
  intro b b' h
  obtain ⟨hhigh, hlow, -⟩ : hexDigit (b / 16) = hexDigit (b' / 16) ∧
      hexDigit (b % 16) = hexDigit (b' % 16) ∧ True := by simpa [hex] using h
  have hb := hall b.toFin
  have hb' := hall b'.toFin
  simp only [UInt8.ofFin_toFin, hhigh, hlow] at hb hb'
  exact UInt8.toFin_inj.mp (Fin.ext (hb.symm.trans hb'))

theorem hexBytes_injective : Function.Injective hexBytes := by
  intro bs
  induction bs with
  | nil =>
    intro bs' h
    cases bs' with
    | nil => rfl
    | cons b' bs' => cases h
  | cons b bs ih =>
    intro bs' h
    cases bs' with
    | nil => cases h
    | cons b' bs' =>
      have happend : hex b ++ hexBytes bs = hex b' ++ hexBytes bs' := h
      obtain ⟨hhead, htail⟩ := List.append_inj happend rfl
      rw [hex_injective hhead, ih htail]

/-- **Different digests have different handles.** -/
theorem handle_injective : Function.Injective handle := by
  intro digest digest' h
  exact List.ofFn_injective (hexBytes_injective (congrArg CString.bytes h))

/-! ## The handles of many calls -/

/-- Calls that all return are made one after the other. -/
theorem mapM_ok {α β : Type} {f : α → Hasher β} {g : α → β} : ∀ {l : List α},
    (∀ a ∈ l, ∀ s, ∃ s', f a s = .ok (g a, s')) →
    ∀ s, ∃ s', l.mapM f s = .ok (l.map g, s') := by
  intro l
  induction l with
  | nil => exact fun _ s => ⟨s, rfl⟩
  | cons a l ih =>
    intro hf s
    obtain ⟨s₁, ha⟩ := hf a List.mem_cons_self s
    obtain ⟨s₂, hl⟩ := ih (fun b hb => hf b (List.mem_cons_of_mem _ hb)) s₁
    refine ⟨s₂, ?_⟩
    rw [List.mapM_cons]
    change (f a s >>= fun p => l.mapM f p.2 >>= fun q => .ok (p.1 :: q.1, q.2)) = _
    rw [ha]
    change (l.mapM f s₁ >>= fun q => .ok (g a :: q.1, q.2)) = _
    rw [hl]
    rfl

namespace Call

variable {S : Set Call} {c d : Call}

/-- The handle of the joined parts of a call. -/
def key (md5 : List UInt8 → Buffer 16) (c : Call) : CString := handle (md5 (joined c.parts).bytes)

/-- Calls that the hasher accepts, and whose strings have no collision in MD5. -/
structure Distinguished (md5 : List UInt8 → Buffer 16) (S : Set Call) : Prop where
  joinable : ∀ c ∈ S, Joinable c.parts
  accepted : ∀ c ∈ S, c.PassesChecks
  collisionFree : ∀ c ∈ S, ∀ d ∈ S,
    md5 (joined c.parts).bytes = md5 (joined d.parts).bytes → joined c.parts = joined d.parts

/-- **Whatever the buffers hold**, a call returns the handle of its parts. -/
theorem Distinguished.hash (h : Distinguished md5 S) (hc : c ∈ S) (s : Statics) :
    ∃ s', c.hash md5 s = .ok (c.key md5, s') := by
  have hpassed := passed_joinable (h.joinable c hc) (h.accepted c hc) s
  rw [passed] at hpassed
  cases hinput : c.input s with
  | error f =>
    rw [hinput] at hpassed
    cases hpassed
  | ok p =>
    obtain ⟨text, s₁⟩ := p
    rw [hinput] at hpassed
    obtain rfl : text = joined c.parts := Except.ok.inj hpassed
    obtain ⟨s', hok, -⟩ := hash_of_input md5 hinput
    exact ⟨s', hok⟩

/-- **Two calls have one handle** exactly if they have the same parts. -/
theorem Distinguished.key_iff (h : Distinguished md5 S) (hc : c ∈ S) (hd : d ∈ S) :
    c.key md5 = d.key md5 ↔ c.parts = d.parts := by
  obtain ⟨hnec, hsepc, -⟩ := h.joinable c hc
  obtain ⟨hned, hsepd, -⟩ := h.joinable d hd
  have hjoin : joined c.parts = joined d.parts ↔ c.parts = d.parts :=
    CString.join_inj hnec hned hsepc hsepd
  rw [← hjoin]
  exact ⟨fun he => h.collisionFree c hc d hd (handle_injective he), fun he => by
    rw [key, key]
    exact congrArg (fun text : CString => handle (md5 text.bytes)) he⟩

end Call

end ExpressionHasher

open ExpressionHasher ExpressionHasher.Call

/-! ## Counts under other names -/

section names

variable {α κ κ' : Type*} [DecidableEq κ] [DecidableEq κ'] {f : α → κ} {g : α → κ'}
  {lists : List (List α)} {x y : α}

theorem count_map_congr {l : List α} (h : ∀ z ∈ l, f z = f x ↔ g z = g x) :
    (l.map f).count (f x) = (l.map g).count (g x) := by
  rw [List.count, List.count, List.countP_map, List.countP_map]
  refine List.countP_congr fun z hz => ?_
  simpa using h z hz

/-- **Occurrences depend only on what counts as equal.** -/
theorem occurrences_map_congr (h : ∀ l ∈ lists, ∀ z ∈ l, f z = f x ↔ g z = g x) :
    occurrences (lists.map (List.map f)) (f x) = occurrences (lists.map (List.map g)) (g x) := by
  rw [occurrences, occurrences, List.map_map, List.map_map]
  exact congrArg List.sum (List.map_congr_left fun l hl => count_map_congr (h l hl))

theorem cooccurrences_map_congr (hx : ∀ l ∈ lists, ∀ z ∈ l, f z = f x ↔ g z = g x)
    (hy : ∀ l ∈ lists, ∀ z ∈ l, f z = f y ↔ g z = g y) :
    cooccurrences (lists.map (List.map f)) (f x) (f y)
      = cooccurrences (lists.map (List.map g)) (g x) (g y) := by
  rw [cooccurrences, cooccurrences, List.map_map, List.map_map]
  refine congrArg List.sum (List.map_congr_left fun l hl => ?_)
  exact congrArg₂ (· * ·) (count_map_congr (hx l hl)) (count_map_congr (hy l hl))

end names

/-! ## From expressions to counts -/

namespace HebbianNetwork

variable {md5 : List UInt8 → Buffer 16} {S : Set Call} {lists : List (List Call)}

/-- The parts of the expressions in the lists. -/
def partLists (lists : List (List Call)) : List (List (List CString)) :=
  lists.map (List.map Call.parts)

/--
**The counts of a network are those of the expressions.**

The expressions of some lists are hashed one after the other, and the lists of their handles are
correlated on a new network. No call fails. Then the count of the handle of an expression, hashed
again at any time, is the number of occurrences of that expression, and the count of an edge the
number of pairs of occurrences, as 32-bit counters show them.
-/
theorem expressions_counted (h : Distinguished md5 S) (hl : ∀ l ∈ lists, ∀ x ∈ l, x ∈ S)
    (s : Statics) :
    ∃ handles s' net, lists.mapM (fun l => l.mapM (Call.hash md5)) s = .ok (handles, s') ∧
      run process new (handles.map fun l => .correlation (l.map (·.bytes))) = some net ∧
      ∀ c ∈ S, ∀ d ∈ S, ∀ s₁ s₂, ∃ h₁ h₂,
        c.returned md5 s₁ = .ok h₁ ∧ d.returned md5 s₂ = .ok h₂ ∧
        net.getNodeCount h₁.bytes = .ok (UInt32.ofNat (occurrences (partLists lists) c.parts)) ∧
        net.getAsymmetricEdgeCount h₁.bytes h₂.bytes = .ok (UInt32.ofNat
          (if c.parts = d.parts then 0 else cooccurrences (partLists lists) c.parts d.parts)) := by
  let key (x : Call) : Key := (x.key md5).bytes
  have hhandle : ∀ x, IsHandle (key x) := fun x => validKey_handle _
  have hkeys : ∀ l ∈ lists.map (List.map key), ∀ k ∈ l, IsHandle k := by
    intro l hmem k hk
    obtain ⟨l, -, rfl⟩ := List.mem_map.mp hmem
    obtain ⟨x, -, rfl⟩ := List.mem_map.mp hk
    exact hhandle x
  have hiff : ∀ x ∈ S, ∀ y ∈ S, key x = key y ↔ x.parts = y.parts := fun x hx y hy =>
    CString.ext_iff.symm.trans (h.key_iff hx hy)
  obtain ⟨net, hrun, hsound, hcount, hedge, -⟩ := run_correlations hkeys
  obtain ⟨s', hhashed⟩ := mapM_ok (fun l hmem => mapM_ok fun x hx => h.hash (hl l hmem x hx)) s
  refine ⟨_, s', net, hhashed, ?_, fun c hc d hd s₁ s₂ => ?_⟩
  · rw [← hrun, List.map_map, List.map_map]
    simp only [Function.comp_def, List.map_map, key]
  · obtain ⟨s₁', h₁⟩ := h.hash hc s₁
    obtain ⟨s₂', h₂⟩ := h.hash hd s₂
    refine ⟨c.key md5, d.key md5, by rw [returned, h₁]; rfl, by rw [returned, h₂]; rfl, ?_, ?_⟩
    · have hsame : occurrences (lists.map (List.map key)) (key c)
          = occurrences (partLists lists) c.parts :=
        occurrences_map_congr fun l hmem z hz => hiff z (hl l hmem z hz) c hc
      rw [getNodeCount_eq hsound.wf (hhandle c), hcount, hsame]
    · have hsame : cooccurrences (lists.map (List.map key)) (key c) (key d)
          = cooccurrences (partLists lists) c.parts d.parts :=
        cooccurrences_map_congr (fun l hmem z hz => hiff z (hl l hmem z hz) c hc)
          fun l hmem z hz => hiff z (hl l hmem z hz) d hd
      rw [getAsymmetricEdgeCount_eq hsound.wf (hhandle c) (hhandle d), hedge, hsame]
      simp only [hiff c hc d hd]

/-- `a b` twice next to `b` and an empty element, which then comes alone. -/
theorem expressions_counted_a_b : ∃ handles s' net,
    [[compositeOfAB, compositeOfB, compositeOfAB], [compositeOfB]].mapM
      (fun l => l.mapM (Call.hash md5Sample)) .init = .ok (handles, s') ∧
    run process new (handles.map fun l => .correlation (l.map (·.bytes))) = some net ∧
    ∃ h₁ h₂, compositeOfAB.returned md5Sample s' = .ok h₁ ∧
      compositeOfB.returned md5Sample .init = .ok h₂ ∧
      net.getNodeCount h₁.bytes = .ok 2 ∧ net.getAsymmetricEdgeCount h₁.bytes h₂.bytes = .ok 2 := by
  have hS : Distinguished md5Sample {compositeOfAB, compositeOfB} := by
    refine ⟨?_, ?_, ?_⟩
    · rintro c (rfl | rfl)
      · exact ⟨by decide, by decide, by decide⟩
      · exact ⟨by decide, by decide, by decide⟩
    · rintro c (rfl | rfl)
      · exact show ElementsPass [letterA, letterB] by decide
      · exact show ElementsPass [letterB, .empty] by decide
    · have hne : md5Sample (joined compositeOfAB.parts).bytes
          ≠ md5Sample (joined compositeOfB.parts).bytes :=
        fun h => absurd (congrFun h 0) (by decide)
      rintro c (rfl | rfl) d (rfl | rfl)
      · exact fun _ => rfl
      · exact fun h => absurd h hne
      · exact fun h => absurd h.symm hne
      · exact fun _ => rfl
  have hlists : ∀ l ∈ [[compositeOfAB, compositeOfB, compositeOfAB], [compositeOfB]], ∀ x ∈ l,
      x ∈ ({compositeOfAB, compositeOfB} : Set Call) := by
    simp
  obtain ⟨handles, s', net, hhashed, hrun, hcounts⟩ := expressions_counted hS hlists .init
  obtain ⟨h₁, h₂, hab, hb, hnode, hedge⟩ := hcounts compositeOfAB (.inl rfl) compositeOfB (.inr rfl)
    s' .init
  exact ⟨handles, s', net, hhashed, hrun, h₁, h₂, hab, hb, hnode, hedge⟩

end HebbianNetwork

end AttentionBroker
