import AttentionBroker.Server.Contexts

/-!
# Calls that select a network at the same time

`select_hebbian_network` searches the map, reads it, searches it again and then reads or stores,
without a lock. Here each search, read and store is one step, and several calls take turns.

Two calls with the same new context can both find no entry. Then both create a network, and the
second one overwrites the entry of the first. `one_network_iff` says that this is all that can
go wrong.
-/

namespace AttentionBroker

open Infra AttentionBrokerServer

/-! ## Calls -/

/-- How far a call is. `skipped` is a call with an empty request. -/
inductive SelectStage where
  | entered
  | reading
  | searching
  | creating
  | readingAgain
  | selected (network : Option Nat)
  | skipped
deriving DecidableEq

/-- A call of `stimulate` or `correlate`, up to the return of `select_hebbian_network`. -/
structure Handler where
  message : Message
  stage : SelectStage

/-- The server and the calls that run on it. -/
abbrev SelectRace := Parties AttentionBrokerServer Handler

namespace Handler

/-- The next step of a call. -/
def advance (h : Handler) (s : AttentionBrokerServer) :
    Except Fault (AttentionBrokerServer × Handler) :=
  match h.stage with
  | .entered =>
    if h.message.request.size = 0 then .ok (s, { h with stage := .skipped })
    else if h.message.context = "" then
      let (network, s) := s.index globalContext
      .ok (s, { h with stage := .selected network })
    else if s.found h.message.context then .ok (s, { h with stage := .reading })
    else .ok (s, { h with stage := .searching })
  | .reading => .ok ((s.index h.message.context).2, { h with stage := .searching })
  | .searching =>
    if s.found h.message.context then .ok (s, { h with stage := .readingAgain })
    else .ok (s, { h with stage := .creating })
  | .creating =>
    let (network, s) := s.create h.message.context
    .ok (s, { h with stage := .selected network })
  | .readingAgain =>
    let (network, s) := s.index h.message.context
    .ok (s, { h with stage := .selected network })
  | .selected _ | .skipped => .ok (s, h)

end Handler

namespace SelectRace

/-- The calls right after they were received. -/
def start (messages : List Message) : SelectRace where
  shared := .new
  locals := messages.map fun message => { message := message, stage := .entered }

/-- The steps of a call that runs alone are `select_hebbian_network`. -/
theorem select_alone {m : Message} (hsize : m.request.size ≠ 0) (s : AttentionBrokerServer) :
    run (Parties.step Handler.advance) { shared := s, locals := [⟨m, .entered⟩] } [0, 0, 0, 0]
      = some { shared := (s.selectHebbianNetwork m.context).2
               locals := [⟨m, .selected (s.selectHebbianNetwork m.context).1⟩] } := by
  by_cases hc : m.context = ""
  · simp [run, Parties.step, Parties.turn, Handler.advance, hsize, hc, selectHebbianNetwork,
      Except.toOption]
  · cases hl : s.hebbianNetwork.lookup m.context with
    | none =>
      simp [run, Parties.step, Parties.turn, Handler.advance, hsize, hc, selectHebbianNetwork,
        Except.toOption, found, hl]
    | some p =>
      simp [run, Parties.step, Parties.turn, Handler.advance, hsize, hc, selectHebbianNetwork,
        Except.toOption, found, hl, index_found hl]

/-! ## One network per context -/

/-- A call that has selected a network has the one in the map. -/
def Served (s : AttentionBrokerServer) (h : Handler) : Prop :=
  ∀ p, h.stage = .selected p →
    s.hebbianNetwork.lookup (canonical h.message.context) = some p

/-- All calls that have selected a network have the one in the map. -/
def AllServed (s : SelectRace) : Prop := ∀ h ∈ s.locals, Served s.shared h

/--
**One network per context.**

Any two calls with the same context have been given the same network, and the map leads to it.
-/
def OneNetwork (s : SelectRace) : Prop :=
  (∀ h ∈ s.locals, ∀ h' ∈ s.locals, h.message.context = h'.message.context →
    ∀ p p', h.stage = .selected p → h'.stage = .selected p' → p = p') ∧
  ∀ h ∈ s.locals, ∀ p, h.stage = .selected p →
    s.shared.hebbianNetwork.lookup (canonical h.message.context) = some p

theorem oneNetwork_iff {s : SelectRace} : OneNetwork s ↔ AllServed s := by
  refine ⟨fun h => h.2, fun hs => ⟨?_, hs⟩⟩
  intro h hh h' hh' hc p p' hp hp'
  have hl := hs h hh p hp
  rw [hc, hs h' hh' p' hp'] at hl
  exact (Option.some.inj hl).symm

/-- All calls have returned from `select_hebbian_network`, or did not need it. -/
def Done (s : SelectRace) : Prop :=
  ∀ h ∈ s.locals, h.stage = .skipped ∨ ∃ p, h.stage = .selected p

/-- A call that stores its network finds no entry for its context. -/
def StoresFirst (s : SelectRace) (i : Nat) : Prop :=
  ∀ h ∈ s.locals[i]?, h.stage = .creating →
    s.shared.hebbianNetwork.lookup h.message.context = none

/-! ## One step -/

/-- What a call knows about the map. -/
def Knows (s : AttentionBrokerServer) (h : Handler) : Prop :=
  match h.stage with
  | .reading | .readingAgain => h.message.context ≠ "" ∧ s.found h.message.context
  | .searching => h.message.context ≠ ""
  | .creating => h.message.context ≠ "" ∧ h.message.context ≠ globalContext
  | .selected p => ∃ a < s.networks.next, p = some a
  | .entered | .skipped => True

variable {s s' : SelectRace} {server server' : AttentionBrokerServer} {h h' : Handler} {i : Nat}

theorem Knows.mono (hk : Knows server h) (hfound : ∀ k, server.found k → server'.found k)
    (hnext : server.networks.next ≤ server'.networks.next) : Knows server' h := by
  obtain ⟨m, stage⟩ := h
  cases stage with
  | reading | readingAgain => exact ⟨hk.1, hfound _ hk.2⟩
  | searching | creating | entered | skipped => exact hk
  | selected p =>
    obtain ⟨a, ha, hp⟩ := hk
    exact ⟨a, Nat.lt_of_lt_of_le ha hnext, hp⟩

theorem served_of_open (hopen : ∀ p, h.stage ≠ .selected p) : Served server h := fun p hp =>
  absurd hp (hopen p)

/-- A call that reads an entry has the network in the map. -/
theorem select_entry {m : Message} {p : Option Nat} (hm : Mapped server)
    (hp : server.hebbianNetwork.lookup (canonical m.context) = some p) :
    Knows server ⟨m, .selected p⟩ ∧ Served server ⟨m, .selected p⟩ := by
  refine ⟨hm.allocated _ p hp, fun q hq => ?_⟩
  cases hq
  exact hp

/-- What a step of a call changes. -/
inductive Moves (h : Handler) (s : AttentionBrokerServer) :
    AttentionBrokerServer → Handler → Prop
  | look {stage : SelectStage} (hopen : ∀ p, h.stage ≠ .selected p) (hidle : h.stage ≠ .creating)
      (hk : Knows s { h with stage := stage }) (hs : Served s { h with stage := stage }) :
      Moves h s s { h with stage := stage }
  | store (hstage : h.stage = .creating) :
      Moves h s (s.create h.message.context).2
        { h with stage := .selected (some s.networks.next) }
  | stay (hidle : h.stage ≠ .creating) : Moves h s s h

/-- **What the next step of a call does.** -/
theorem advance_moves (hm : Mapped server) (hk : Knows server h) :
    ∃ server' h', h.advance server = .ok (server', h') ∧ Moves h server server' h' := by
  obtain ⟨m, stage⟩ := h
  cases stage with
  | entered =>
    by_cases hsize : m.request.size = 0
    · exact ⟨server, ⟨m, .skipped⟩, by simp [Handler.advance, hsize],
        .look (by simp) (by simp) trivial (served_of_open (by simp))⟩
    · by_cases hc : m.context = ""
      · obtain ⟨p, hp⟩ := Option.isSome_iff_exists.mp hm.global
        obtain ⟨hkp, hsp⟩ := select_entry (p := p) hm (by rw [canonical, if_pos hc]; exact hp)
        exact ⟨server, ⟨m, .selected p⟩, by simp [Handler.advance, hsize, hc, index_found hp],
          .look (by simp) (by simp) hkp hsp⟩
      · cases hf : server.found m.context with
        | true =>
          exact ⟨server, ⟨m, .reading⟩, by simp [Handler.advance, hsize, hc, hf],
            .look (by simp) (by simp) ⟨hc, hf⟩ (served_of_open (by simp))⟩
        | false =>
          exact ⟨server, ⟨m, .searching⟩, by simp [Handler.advance, hsize, hc, hf],
            .look (by simp) (by simp) hc (served_of_open (by simp))⟩
  | reading =>
    obtain ⟨hc, hf⟩ := hk
    obtain ⟨p, hp⟩ := Option.isSome_iff_exists.mp hf
    exact ⟨server, ⟨m, .searching⟩, by simp [Handler.advance, index_found hp],
      .look (by simp) (by simp) hc (served_of_open (by simp))⟩
  | searching =>
    cases hf : server.found m.context with
    | true =>
      exact ⟨server, ⟨m, .readingAgain⟩, by simp [Handler.advance, hf],
        .look (by simp) (by simp) ⟨hk, hf⟩ (served_of_open (by simp))⟩
    | false =>
      have hglobal : m.context ≠ globalContext := by
        intro he
        have hg := hm.global
        rw [← he, hf] at hg
        cases hg
      exact ⟨server, ⟨m, .creating⟩, by simp [Handler.advance, hf],
        .look (by simp) (by simp) ⟨hk, hglobal⟩ (served_of_open (by simp))⟩
  | creating => exact ⟨_, _, rfl, .store rfl⟩
  | readingAgain =>
    obtain ⟨hc, hf⟩ := hk
    obtain ⟨p, hp⟩ := Option.isSome_iff_exists.mp hf
    obtain ⟨hkp, hsp⟩ := select_entry (p := p) hm (by rw [canonical, if_neg hc]; exact hp)
    exact ⟨server, ⟨m, .selected p⟩, by simp [Handler.advance, index_found hp],
      .look (by simp) (by simp) hkp hsp⟩
  | selected p => exact ⟨server, ⟨m, .selected p⟩, rfl, .stay (by simp)⟩
  | skipped => exact ⟨server, ⟨m, .skipped⟩, rfl, .stay (by simp)⟩

/-! ## All steps -/

/-- What every state satisfies. Each entry but the first was stored by a call that has it. -/
structure Kept (s : SelectRace) : Prop where
  mapped : Mapped s.shared
  knows : ∀ h ∈ s.locals, Knows s.shared h
  stored : ∀ k q, s.shared.hebbianNetwork.lookup k = some q → k ≠ globalContext →
    ∃ h ∈ s.locals, h.stage = .selected q ∧ canonical h.message.context = k

/-- Only a context of its own is created. -/
theorem Kept.creating (hs : Kept s) (hh : s.locals[i]? = some h) (hstage : h.stage = .creating) :
    h.message.context ≠ globalContext ∧ canonical h.message.context = h.message.context := by
  have hk := hs.knows h (Parties.mem_of_get hh)
  simp only [Knows, hstage] at hk
  exact ⟨hk.2, if_neg hk.1⟩

theorem found_create (context k : String) (s : AttentionBrokerServer) (hf : s.found k) :
    (s.create context).2.found k := by
  rw [found, lookup_create]
  split
  · rfl
  · exact hf

theorem Kept.move (hs : Kept s) (hh : s.locals[i]? = some h) (hm : Moves h s.shared server' h') :
    Kept { shared := server', locals := s.locals.set i h' } := by
  cases hm with
  | look hopen hidle hk hserved =>
    refine ⟨hs.mapped, Parties.forall_set hs.knows hk, fun k q hq hk' => ?_⟩
    refine (Parties.exists_set hh _).mpr (.inr ?_)
    rcases (Parties.exists_locals hh).mp (hs.stored k q hq hk') with ⟨hsel, -⟩ | hothers
    · exact absurd hsel (hopen q)
    · exact hothers
  | store hstage =>
    obtain ⟨-, hcanonical⟩ := hs.creating hh hstage
    refine ⟨hs.mapped.create _, Parties.forall_set (fun x hx => ?_) ?_, fun k q hq hk' => ?_⟩
    · exact (hs.knows x hx).mono (fun k => found_create _ k _) (Nat.le_succ _)
    · exact ⟨s.shared.networks.next, Nat.lt_succ_self _, rfl⟩
    · refine (Parties.exists_set hh _).mpr ?_
      simp only [lookup_create] at hq
      split at hq
      · next he =>
        rw [Option.some.inj hq]
        exact .inl ⟨rfl, hcanonical.trans he.symm⟩
      · rcases (Parties.exists_locals hh).mp (hs.stored k q hq hk') with ⟨hsel, -⟩ | hothers
        · rw [hstage] at hsel
          cases hsel
        · exact .inr hothers
  | stay =>
    have hset : s.locals.set i h = s.locals := by
      obtain ⟨hi, rfl⟩ := List.getElem?_eq_some_iff.mp hh
      exact List.set_getElem_self hi
    rw [hset]
    exact hs

/-- **A call that stores over an entry leaves the one that has it behind.** -/
theorem allServed_store (hs : Kept s) (hh : s.locals[i]? = some h) (hstage : h.stage = .creating) :
    AllServed { shared := (s.shared.create h.message.context).2
                locals := s.locals.set i
                  { h with stage := .selected (some s.shared.networks.next) } }
      ↔ AllServed s ∧ s.shared.hebbianNetwork.lookup h.message.context = none := by
  obtain ⟨hglobal, hcanonical⟩ := hs.creating hh hstage
  have hopen : ∀ p, h.stage ≠ .selected p := by
    rw [hstage]
    exact nofun
  have hself : Served (s.shared.create h.message.context).2
      { h with stage := .selected (some s.shared.networks.next) } := by
    intro p hp
    cases hp
    rw [hcanonical, lookup_create, if_pos rfl]
  -- no other call has the new network
  have hother : ∀ x ∈ s.others i, Served (s.shared.create h.message.context).2 x →
      ∀ p, x.stage = .selected p → canonical x.message.context ≠ h.message.context := by
    intro x hx hserved p hp he
    have hl := hserved p hp
    rw [lookup_create, if_pos he] at hl
    have hmem : x ∈ s.locals := (Parties.perm_others hh).mem_iff.mpr (List.mem_cons_of_mem _ hx)
    have hknows := hs.knows x hmem
    simp only [Knows, hp] at hknows
    obtain ⟨a, ha, rfl⟩ := hknows
    exact Nat.lt_irrefl _ (Option.some.inj (Option.some.inj hl) ▸ ha)
  rw [AllServed, AllServed, Parties.forall_set_others hh, Parties.forall_locals hh,
    and_iff_right hself, and_iff_right (served_of_open hopen)]
  constructor
  · intro hall
    refine ⟨fun x hx p hp => ?_, ?_⟩
    · have hl := hall x hx p hp
      rwa [lookup_create, if_neg (hother x hx (hall x hx) p hp)] at hl
    · cases hl : s.shared.hebbianNetwork.lookup h.message.context with
      | none => rfl
      | some q =>
        rcases (Parties.exists_locals hh).mp (hs.stored _ q hl hglobal) with ⟨hsel, -⟩ | hx
        · exact absurd hsel (hopen q)
        · obtain ⟨x, hx, hsel, hc⟩ := hx
          exact absurd hc (hother x hx (hall x hx) q hsel)
  · rintro ⟨hall, hnone⟩ x hx p hp
    have hl := hall x hx p hp
    rw [lookup_create, if_neg, hl]
    intro he
    rw [he, hnone] at hl
    cases hl

theorem allServed_move (hs : Kept s) (hh : s.locals[i]? = some h)
    (hm : Moves h s.shared server' h') :
    AllServed { shared := server', locals := s.locals.set i h' }
      ↔ AllServed s ∧ StoresFirst s i := by
  have hfirst : StoresFirst s i ↔ (h.stage = .creating →
      s.shared.hebbianNetwork.lookup h.message.context = none) := by
    simp [StoresFirst, hh]
  rw [hfirst]
  cases hm with
  | look hopen hidle hk hserved =>
    rw [and_iff_left fun he => absurd he hidle, AllServed, AllServed,
      Parties.forall_set_others hh, Parties.forall_locals hh, and_iff_right hserved,
      and_iff_right (served_of_open hopen)]
  | store hstage =>
    rw [allServed_store hs hh hstage]
    simp [hstage]
  | stay hidle =>
    rw [and_iff_left fun he => absurd he hidle, AllServed, AllServed,
      Parties.forall_set_others hh, Parties.forall_locals hh]

/-- **A turn is always possible**, and all calls stay served unless it stores over an entry. -/
theorem Kept.step (hs : Kept s) (i : Nat) :
    ∃ s', s.step Handler.advance i = some s' ∧ Kept s' ∧
      (AllServed s' ↔ AllServed s ∧ StoresFirst s i) := by
  cases hh : s.locals[i]? with
  | none => exact ⟨s, Parties.step_of_turn (Parties.turn_none hh), hs, by simp [StoresFirst, hh]⟩
  | some h =>
    obtain ⟨server', h', hrun, hm⟩ := advance_moves hs.mapped (hs.knows h (Parties.mem_of_get hh))
    exact ⟨_, Parties.step_of_turn (Parties.turn_ok hh hrun), hs.move hh hm,
      allServed_move hs hh hm⟩

theorem kept_start (messages : List Message) : Kept (start messages) := by
  refine ⟨routed_new.mapped, fun h hh => ?_, fun k q hq hk => ?_⟩
  · obtain ⟨m, -, rfl⟩ := List.mem_map.mp hh
    trivial
  · have hl : new.hebbianNetwork.lookup k = some q := hq
    rw [lookup_new, if_neg hk] at hl
    cases hl

/-- **Every order of the turns is possible.** -/
theorem run_possible (messages : List Message) (schedule : List Nat) :
    ∃ s, run (Parties.step Handler.advance) (start messages) schedule = some s := by
  have hall : AllSteps (Parties.step Handler.advance) (fun _ _ => True) (start messages) schedule :=
    allSteps_of_forall fun _ _ => trivial
  obtain ⟨s, hrun, -⟩ := run_total Kept
    (fun s i hs _ => (hs.step i).imp fun s' h => ⟨h.1, h.2.1⟩) schedule _ hall (kept_start messages)
  exact ⟨s, hrun⟩

/--
**All calls share one network per context exactly if no call stores over an entry.**

The schedule lists whose turn it is. A turn of a call that has returned changes nothing.
-/
theorem one_network_iff (messages : List Message) (schedule : List Nat) :
    ∃ s, run (Parties.step Handler.advance) (start messages) schedule = some s ∧
      (OneNetwork s ↔
        AllSteps (Parties.step Handler.advance) StoresFirst (start messages) schedule) := by
  obtain ⟨s, hrun⟩ := run_possible messages schedule
  refine ⟨s, hrun, ?_⟩
  have hstep : ∀ (s : SelectRace) i s', Kept s → s.step Handler.advance i = some s' →
      Kept s' ∧ (AllServed s' ↔ AllServed s ∧ StoresFirst s i) := by
    intro s i s' hs hs'
    obtain ⟨s₁, h₁, hkept⟩ := hs.step i
    obtain rfl := Option.some.inj (h₁.symm.trans hs')
    exact hkept
  obtain ⟨-, hiff⟩ := allSteps_iff Kept hstep schedule _ s hrun (kept_start messages)
  rw [oneNetwork_iff, hiff]
  refine and_iff_right fun h hh => ?_
  obtain ⟨m, -, rfl⟩ := List.mem_map.mp hh
  exact served_of_open nofun

/-- A stimulus for a context that the server has not seen. -/
def newContextMessage : Message :=
  { request := .stimulus stimulusOfA, context := "new", hebbianNetwork := none }

/--
Two networks for one context.

Both calls search the map before either of them has stored its network. The first one keeps a
network that the map does not lead to any more.
-/
theorem two_networks :
    ∃ s, run (Parties.step Handler.advance) (start [newContextMessage, newContextMessage])
        [0, 1, 0, 1, 0, 1] = some s ∧ Done s ∧ ¬ OneNetwork s := by
  have hrun : (run (Parties.step Handler.advance) (start [newContextMessage, newContextMessage])
      [0, 1, 0, 1, 0, 1]).map (fun s => s.locals.map fun h => (h.message.context, h.stage))
      = some [("new", .selected (some 1)), ("new", .selected (some 2))] := by
    decide +kernel
  obtain ⟨⟨server, calls⟩, hs, hcalls⟩ := Option.map_eq_some_iff.mp hrun
  obtain ⟨h₁, calls, rfl, he₁, hcalls⟩ := List.map_eq_cons_iff.mp hcalls
  obtain ⟨h₂, calls, rfl, he₂, hcalls⟩ := List.map_eq_cons_iff.mp hcalls
  obtain rfl := List.map_eq_nil_iff.mp hcalls
  obtain ⟨hc₁, hs₁⟩ := Prod.mk.inj he₁
  obtain ⟨hc₂, hs₂⟩ := Prod.mk.inj he₂
  refine ⟨_, hs, ?_, fun hone => ?_⟩
  · simp [Done, hs₁, hs₂]
  · have hsame := hone.1 h₁ (by simp) h₂ (by simp) (hc₁.trans hc₂.symm) _ _ hs₁ hs₂
    cases hsame

end SelectRace

end AttentionBroker
