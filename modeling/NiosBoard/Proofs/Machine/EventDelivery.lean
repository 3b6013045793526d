import Mathlib.Data.List.Induction
import NiosBoard.Machine.Event
import NiosBoard.Proofs.Lists

/-! # Delivery of events

Handles of one bus share its list of listeners. Every listener that is still there has been handed the
events that were published on the bus since it subscribed, and whoever went away stays on the list until
the next event.
-/

namespace NiosBoard.EventBus

variable {b : EventBus}

/-! ### One bus -/

def Numbered (b : EventBus) : Prop := ∀ l ∈ b.listeners, l.id < b.subscribed

theorem live?_publish (b : EventBus) (e : Event) (id : Nat) :
    (b.publish e).live? id = (b.live? id).map fun l => { l with received := e :: l.received } := by
  rw [live?, live?, publish]
  induction b.listeners with
  | nil => rfl
  | cons l ls ih =>
    rw [List.filterMap_cons]
    cases hLive : l.live with
    | false => simpa [hLive] using ih
    | true =>
      by_cases hId : l.id = id
      · simp [hLive, hId]
      · simpa [hLive, hId] using ih

theorem pending?_publish (b : EventBus) (e : Event) (id : Nat) :
    (b.publish e).pending? id = (b.pending? id).map (· ++ [e]) := by
  rw [pending?, live?_publish, pending?]
  cases b.live? id with
  | none => rfl
  | some l => simp

theorem publishAll_append (b : EventBus) (es es' : List Event) :
    b.publishAll (es ++ es') = (b.publishAll es).publishAll es' := List.foldl_append

theorem pending?_publishAll (b : EventBus) (es : List Event) (id : Nat) :
    (b.publishAll es).pending? id = (b.pending? id).map (· ++ es) := by
  induction es generalizing b with
  | nil => simp [publishAll]
  | cons e es ih =>
    show ((b.publish e).publishAll es).pending? id = _
    rw [ih, pending?_publish, Option.map_map]
    congr
    funext log
    simp

theorem live?_eq_none (h : b.Numbered) {id : Nat} (hId : b.subscribed ≤ id) : b.live? id = none := by
  rw [live?, List.find?_eq_none]
  intro l hl hSame
  have hLt := h l hl
  rw [Bool.and_eq_true, beq_iff_eq] at hSame
  omega

theorem pending?_subscribe (h : b.Numbered) : b.subscribe.2.pending? b.subscribe.1 = some [] := by
  have hNone := live?_eq_none h (Nat.le_refl b.subscribed)
  rw [live?] at hNone
  rw [pending?, live?, subscribe]
  simp only [List.find?_append, hNone]
  simp

theorem numbered_publish (e : Event) (h : b.Numbered) : (b.publish e).Numbered := by
  intro l hl
  obtain ⟨l₀, hl₀, hSome⟩ := List.mem_filterMap.mp hl
  split at hSome
  · cases hSome
    exact h l₀ hl₀
  · cases hSome

theorem numbered_publishAll (es : List Event) (h : b.Numbered) : (b.publishAll es).Numbered := by
  induction es generalizing b with
  | nil => exact h
  | cons e es ih => exact ih (numbered_publish e h)

theorem numbered_subscribe (h : b.Numbered) : b.subscribe.2.Numbered := by
  intro l hl
  rcases List.mem_append.mp hl with hl | hl
  · exact Nat.lt_succ_of_lt (h l hl)
  · rw [List.mem_singleton.mp hl]
    exact Nat.lt_succ_self _

theorem numbered_map {f : Listener → Listener} (hf : ∀ l, (f l).id = l.id) (h : b.Numbered) :
    ({ b with listeners := b.listeners.map f } : EventBus).Numbered := by
  intro l hl
  obtain ⟨l₀, hl₀, rfl⟩ := List.mem_map.mp hl
  rw [hf]
  exact h l₀ hl₀

theorem pending?_subscribe_of_ne {id : Nat} (h : id ≠ b.subscribed) :
    b.subscribe.2.pending? id = b.pending? id := by
  simp [pending?, live?, subscribe, List.find?_append, h.symm]

theorem mem_of_live? {id : Nat} {l : Listener} (h : b.live? id = some l) :
    l ∈ b.listeners ∧ l.id = id := by
  rw [live?] at h
  have hFound := List.find?_some h
  rw [Bool.and_eq_true, beq_iff_eq] at hFound
  exact ⟨List.mem_of_find?_eq_some h, hFound.2⟩

theorem pending?_drain (b : EventBus) (id other : Nat) :
    (b.drain id).pending? other =
      if other = id then (b.pending? other).map fun _ => [] else b.pending? other := by
  have hLive : (b.drain id).live? other =
      (b.live? other).map fun l => if l.id = id then { l with received := [] } else l := by
    rw [live?, live?, drain, List.find?_map]
    congr 2
    funext l
    by_cases hId : l.id = id <;> simp [hId]
  rw [pending?, hLive, pending?]
  cases hFound : b.live? other with
  | none => simp
  | some l =>
    by_cases hSame : other = id <;> simp [(mem_of_live? hFound).2, hSame]

theorem pending?_drop (b : EventBus) (id other : Nat) :
    (b.drop id).pending? other = if other = id then none else b.pending? other := by
  have hLive : (b.drop id).live? other = if other = id then none else b.live? other := by
    rw [live?, drop, List.find?_map]
    by_cases hSame : other = id
    · rw [if_pos hSame, Option.map_eq_none_iff, List.find?_eq_none]
      intro l _
      by_cases hId : l.id = id <;> simp [hId, hSame]
    · have hSearch : ((fun l : Listener => l.live && l.id == other) ∘ fun l =>
          if l.id = id then { l with live := false } else l) = fun l => l.live && l.id == other := by
        funext l
        by_cases hId : l.id = id <;> simp [hId, Ne.symm hSame]
      rw [if_neg hSame, hSearch, ← live?]
      cases hFound : b.live? other with
      | none => rfl
      | some l => simp [(mem_of_live? hFound).2, hSame]
  rw [pending?, hLive, pending?]
  split <;> rfl

/-! ### Actions on a bus -/

/-- What is done with a bus. Listeners are named by their numbers. -/
inductive Action where
  | subscribe
  | publish (e : Event)
  | drain (id : Nat)
  | drop (id : Nat)
  deriving DecidableEq, Repr

def Action.event? : Action → Option Event
  | .publish e => some e
  | _ => none

def published (acts : List Action) : List Event := acts.filterMap Action.event?

/-- A bus, and what its listeners have taken off their queues. -/
structure InUse where
  bus : EventBus
  drained : Nat → List Event

namespace InUse

def fresh : InUse := ⟨new, fun _ => []⟩

def act (u : InUse) : Action → InUse
  | .subscribe => { u with bus := u.bus.subscribe.2 }
  | .publish e => { u with bus := u.bus.publish e }
  | .drain id =>
    { bus := u.bus.drain id
      drained := Function.update u.drained id (u.drained id ++ (u.bus.pending? id).getD []) }
  | .drop id => { u with bus := u.bus.drop id }

/-- What a live listener has received in all: what it drained, then what is queued. -/
def received? (u : InUse) (id : Nat) : Option (List Event) :=
  (u.bus.pending? id).map (u.drained id ++ ·)

/-- The listener is on the list, live or not. -/
def Lists (u : InUse) (id : Nat) : Prop := ∃ l ∈ u.bus.listeners, l.id = id

/-- Numbers that were not given out yet have no listener that could have drained anything. -/
structure Sound (u : InUse) : Prop where
  numbered : u.bus.Numbered
  drained : ∀ id, u.bus.subscribed ≤ id → u.drained id = []

variable {u : InUse}

theorem sound_act (h : u.Sound) (a : Action) : (u.act a).Sound := by
  cases a with
  | subscribe =>
    exact ⟨numbered_subscribe h.numbered, fun id hId => h.drained id (Nat.le_of_succ_le hId)⟩
  | publish e => exact ⟨numbered_publish e h.numbered, h.drained⟩
  | drain id =>
    refine ⟨numbered_map (fun l => by split <;> rfl) h.numbered, fun other hOther => ?_⟩
    by_cases hSame : other = id
    · subst hSame
      simp [act, h.drained other hOther, pending?, live?_eq_none h.numbered hOther]
    · simpa [act, hSame] using h.drained other hOther
  | drop id => exact ⟨numbered_map (fun l => by split <;> rfl) h.numbered, h.drained⟩

theorem received?_publish (u : InUse) (e : Event) (id : Nat) :
    (u.act (.publish e)).received? id = (u.received? id).map (· ++ [e]) := by
  simp only [received?, act, pending?_publish, Option.map_map]
  congr 1
  funext log
  exact (List.append_assoc ..).symm

/-- Draining moves events from one part to the other. -/
theorem received?_drain (u : InUse) (id other : Nat) :
    (u.act (.drain id)).received? other = u.received? other := by
  rw [received?, act, pending?_drain, received?]
  by_cases hSame : other = id
  · subst hSame
    cases hPending : u.bus.pending? other <;> simp
  · simp [hSame]

theorem received?_drop (u : InUse) (id other : Nat) :
    (u.act (.drop id)).received? other = if other = id then none else u.received? other := by
  rw [received?, act, pending?_drop, received?]
  split <;> rfl

theorem received?_act_iff (h : u.Sound) {a : Action} {id : Nat} {log : List Event} :
    (u.act a).received? id = some log ↔ (a = .subscribe ∧ u.bus.subscribed = id ∧ log = []) ∨
      ∃ log₀, u.received? id = some log₀ ∧ a ≠ .drop id ∧ log = log₀ ++ a.event?.toList := by
  cases a with
  | subscribe =>
    by_cases hId : id = u.bus.subscribed
    · subst hId
      have hNone : u.received? u.bus.subscribed = none := by
        rw [received?, pending?, live?_eq_none h.numbered (Nat.le_refl _)]
        rfl
      have hNew : (u.act .subscribe).received? u.bus.subscribed = some [] := by
        have hPending : u.bus.subscribe.2.pending? u.bus.subscribed = some [] :=
          pending?_subscribe h.numbered
        rw [received?, act, hPending, Option.map_some, h.drained _ (Nat.le_refl _)]
        rfl
      rw [hNew, hNone]
      simp [eq_comm]
    · have hOther : (u.act .subscribe).received? id = u.received? id := by
        rw [received?, act, pending?_subscribe_of_ne hId, received?]
      rw [hOther]
      simp [Ne.symm hId, Action.event?]
  | publish e =>
    rw [received?_publish, Option.map_eq_some_iff]
    simp [Action.event?, eq_comm]
  | drain other =>
    rw [received?_drain]
    simp [Action.event?]
  | drop other =>
    rw [received?_drop]
    by_cases hId : id = other
    · simp [hId]
    · simp [hId, Ne.symm hId, Action.event?]

theorem lists_map_iff {f : Listener → Listener} (hf : ∀ l, (f l).id = l.id) {drained : Nat → List Event}
    {id : Nat} :
    InUse.Lists ⟨{ u.bus with listeners := u.bus.listeners.map f }, drained⟩ id ↔ u.Lists id := by
  simp [Lists, hf]

theorem exists_received?_iff {id : Nat} :
    (∃ log, u.received? id = some log) ↔ ∃ l ∈ u.bus.listeners, l.live = true ∧ l.id = id := by
  rw [← Option.isSome_iff_exists, received?, Option.isSome_map, pending?, Option.isSome_map, live?,
    List.find?_isSome]
  simp only [Bool.and_eq_true, beq_iff_eq]

theorem lists_act_iff {a : Action} {id : Nat} :
    (u.act a).Lists id ↔ (a = .subscribe ∧ u.bus.subscribed = id) ∨
      (∃ log, u.received? id = some log) ∨ (u.Lists id ∧ a.event? = none) := by
  have hStays : (∃ log, u.received? id = some log) ∨ u.Lists id ↔ u.Lists id := by
    rw [exists_received?_iff]
    exact or_iff_right_of_imp fun ⟨l, hl, _, hId⟩ => ⟨l, hl, hId⟩
  cases a with
  | subscribe =>
    simp only [Action.event?, and_true, true_and, hStays]
    simp [Lists, act, EventBus.subscribe, or_comm]
  | publish e =>
    simp only [Action.event?, reduceCtorEq, false_and, false_or, and_false, or_false]
    rw [exists_received?_iff]
    simp [Lists, act, EventBus.publish, and_assoc]
  | drain other =>
    simp only [Action.event?, and_true, reduceCtorEq, false_and, false_or, hStays]
    exact lists_map_iff fun l => by split <;> rfl
  | drop other =>
    simp only [Action.event?, and_true, reduceCtorEq, false_and, false_or, hStays]
    exact lists_map_iff fun l => by split <;> rfl

theorem hasListeners_iff : u.bus.hasListeners = true ↔ ∃ id, u.Lists id := by
  rw [hasListeners, Bool.not_eq_true', List.isEmpty_eq_false_iff_exists_mem]
  constructor
  · rintro ⟨l, hl⟩
    exact ⟨l.id, l, hl, rfl⟩
  · rintro ⟨-, l, hl, -⟩
    exact ⟨l, hl⟩

end InUse

/-! ### What has happened since a listener subscribed -/

/-- Listener number `id` subscribed, and these actions came after that. -/
def Since (acts : List Action) (id : Nat) (since : List Action) : Prop :=
  ∃ before, acts = before ++ .subscribe :: since ∧ before.count .subscribe = id

/-- The listener went away, and nothing was published after that. -/
def WentUnnoticed (since : List Action) (id : Nat) : Prop :=
  ∃ before rest, since = before ++ .drop id :: rest ∧ .drop id ∉ before ∧ published rest = []

theorem published_concat (acts : List Action) (a : Action) :
    published (acts ++ [a]) = published acts ++ a.event?.toList := by
  rw [published, List.filterMap_append, published]
  cases h : a.event? <;> simp [h]

section Since

variable {acts since : List Action} {a : Action} {id : Nat}

theorem since_concat_iff : Since (acts ++ [a]) id since ↔
    (a = .subscribe ∧ since = [] ∧ acts.count .subscribe = id) ∨
      ∃ earlier, since = earlier ++ [a] ∧ Since acts id earlier := by
  constructor
  · rintro ⟨before, hActs, hId⟩
    rcases concat_eq_append_cons_iff.mp hActs with ⟨rfl, rfl, rfl⟩ | ⟨earlier, rfl, rfl⟩
    · exact .inl ⟨rfl, rfl, hId⟩
    · exact .inr ⟨earlier, rfl, before, rfl, hId⟩
  · rintro (⟨rfl, rfl, hId⟩ | ⟨earlier, rfl, before, rfl, hId⟩)
    · exact ⟨acts, rfl, hId⟩
    · exact ⟨before, by simp, hId⟩

theorem wentUnnoticed_concat_iff : WentUnnoticed (since ++ [a]) id ↔
    (a = .drop id ∧ .drop id ∉ since) ∨ (WentUnnoticed since id ∧ a.event? = none) := by
  constructor
  · rintro ⟨before, rest, hSince, hFirst, hRest⟩
    rcases concat_eq_append_cons_iff.mp hSince with ⟨rfl, rfl, rfl⟩ | ⟨earlier, rfl, rfl⟩
    · exact .inl ⟨rfl, hFirst⟩
    · rw [published_concat, List.append_eq_nil_iff, Option.toList_eq_nil_iff] at hRest
      exact .inr ⟨⟨before, earlier, rfl, hFirst, hRest.1⟩, hRest.2⟩
  · rintro (⟨rfl, hFirst⟩ | ⟨⟨before, earlier, rfl, hFirst, hRest⟩, hSilent⟩)
    · exact ⟨since, [], rfl, hFirst, rfl⟩
    · refine ⟨before, earlier ++ [a], by simp, hFirst, ?_⟩
      rw [published_concat, hRest, hSilent]
      rfl

/-- The listener is there, and it was handed these events. -/
def Handed (acts : List Action) (id : Nat) (log : List Event) : Prop :=
  ∃ since, Since acts id since ∧ .drop id ∉ since ∧ log = published since

/-- The listener is there, or nobody has noticed yet that it is not. -/
def Listed (acts : List Action) (id : Nat) : Prop :=
  ∃ since, Since acts id since ∧ (.drop id ∉ since ∨ WentUnnoticed since id)

theorem handed_concat_iff {log : List Event} : Handed (acts ++ [a]) id log ↔
    (a = .subscribe ∧ acts.count .subscribe = id ∧ log = []) ∨
      ∃ log₀, Handed acts id log₀ ∧ a ≠ .drop id ∧ log = log₀ ++ a.event?.toList := by
  simp only [Handed, since_concat_iff]
  constructor
  · rintro ⟨since, ⟨hSubscribe, rfl, hId⟩ | ⟨earlier, rfl, hEarlier⟩, hLive, rfl⟩
    · exact .inl ⟨hSubscribe, hId, rfl⟩
    · rw [List.mem_append, List.mem_singleton, not_or] at hLive
      exact .inr ⟨_, ⟨earlier, hEarlier, hLive.1, rfl⟩, Ne.symm hLive.2, published_concat _ _⟩
  · rintro (⟨hSubscribe, hId, rfl⟩ | ⟨_, ⟨earlier, hEarlier, hLive, rfl⟩, hDrop, rfl⟩)
    · exact ⟨[], .inl ⟨hSubscribe, rfl, hId⟩, by simp, rfl⟩
    · refine ⟨earlier ++ [a], .inr ⟨earlier, rfl, hEarlier⟩, ?_, (published_concat _ _).symm⟩
      rw [List.mem_append, List.mem_singleton, not_or]
      exact ⟨hLive, hDrop.symm⟩

theorem listed_concat_iff : Listed (acts ++ [a]) id ↔
    (a = .subscribe ∧ acts.count .subscribe = id) ∨
      (∃ log, Handed acts id log) ∨ (Listed acts id ∧ a.event? = none) := by
  have hStays : ∀ earlier, Since acts id earlier → .drop id ∉ earlier → Listed (acts ++ [a]) id := by
    intro earlier hEarlier hLive
    refine ⟨earlier ++ [a], since_concat_iff.mpr (.inr ⟨earlier, rfl, hEarlier⟩), ?_⟩
    by_cases hDrop : a = .drop id
    · exact .inr (wentUnnoticed_concat_iff.mpr (.inl ⟨hDrop, hLive⟩))
    · exact .inl (by simp [hLive, Ne.symm hDrop])
  constructor
  · rintro ⟨since, hSince, hListed⟩
    rcases since_concat_iff.mp hSince with ⟨hSubscribe, rfl, hId⟩ | ⟨earlier, rfl, hEarlier⟩
    · exact .inl ⟨hSubscribe, hId⟩
    · refine .inr ?_
      rw [List.mem_append, not_or, wentUnnoticed_concat_iff] at hListed
      rcases hListed with ⟨hLive, -⟩ | ⟨-, hLive⟩ | ⟨hWent, hSilent⟩
      · exact .inl ⟨_, earlier, hEarlier, hLive, rfl⟩
      · exact .inl ⟨_, earlier, hEarlier, hLive, rfl⟩
      · exact .inr ⟨⟨earlier, hEarlier, .inr hWent⟩, hSilent⟩
  · rintro (⟨hSubscribe, hId⟩ | ⟨_, earlier, hEarlier, hLive, rfl⟩ |
      ⟨⟨earlier, hEarlier, hListed⟩, hSilent⟩)
    · exact ⟨[], since_concat_iff.mpr (.inl ⟨hSubscribe, rfl, hId⟩), .inl (by simp)⟩
    · exact hStays earlier hEarlier hLive
    · rcases hListed with hLive | hWent
      · exact hStays earlier hEarlier hLive
      · exact ⟨_, since_concat_iff.mpr (.inr ⟨earlier, rfl, hEarlier⟩),
          .inr (wentUnnoticed_concat_iff.mpr (.inr ⟨hWent, hSilent⟩))⟩

end Since

/-! ### From one action to all -/

/-- A bus after these actions. -/
structure Delivered (acts : List Action) (u : InUse) : Prop where
  sound : u.Sound
  subscribed : u.bus.subscribed = acts.count .subscribe
  received : ∀ id log, u.received? id = some log ↔ Handed acts id log
  lists : ∀ id, u.Lists id ↔ Listed acts id

theorem delivered_fresh : Delivered [] .fresh where
  sound := ⟨nofun, fun _ _ => rfl⟩
  subscribed := rfl
  received id log := by
    refine ⟨nofun, ?_⟩
    rintro ⟨since, ⟨before, hActs, -⟩, -⟩
    simp at hActs
  lists id := by
    constructor
    · rintro ⟨l, hl, -⟩
      cases hl
    · rintro ⟨since, ⟨before, hActs, -⟩, -⟩
      simp at hActs

theorem Delivered.act {acts : List Action} {u : InUse} (h : Delivered acts u) (a : Action) :
    Delivered (acts ++ [a]) (u.act a) where
  sound := InUse.sound_act h.sound a
  subscribed := by
    rw [List.count_append, ← h.subscribed]
    cases a <;> rfl
  received id log := by
    rw [InUse.received?_act_iff h.sound, handed_concat_iff, h.subscribed]
    simp only [h.received]
  lists id := by
    rw [InUse.lists_act_iff, listed_concat_iff, h.subscribed, h.lists]
    simp only [h.received]

theorem delivered_acts (acts : List Action) : Delivered acts (acts.foldl InUse.act .fresh) := by
  induction acts using List.reverseRecOn with
  | nil => exact delivered_fresh
  | append_singleton acts a ih =>
    rw [List.foldl_append]
    exact ih.act a

/-! ### Handles -/

/-- What is done with buses. A handle is known by its number, and a listener by a handle of its bus and
its own number there. -/
inductive Operation where
  | new
  | clone (handle : Nat)
  | act (handle : Nat) (a : Action)
  deriving DecidableEq, Repr

/-- Buses, and which of them each handle refers to. -/
structure Buses where
  state : Nat → InUse
  made : Nat
  handles : List Nat

namespace Buses

def initial : Buses := ⟨fun _ => .fresh, 0, []⟩

/-- A handle that does not exist does nothing. -/
def step (s : Buses) : Operation → Buses
  | .new => { s with made := s.made + 1, handles := s.handles ++ [s.made] }
  | .clone handle => { s with handles := s.handles ++ s.handles[handle]?.toList }
  | .act handle a =>
    match s.handles[handle]? with
    | some bus => { s with state := Function.update s.state bus ((s.state bus).act a) }
    | none => s

def actionOn? (s : Buses) (bus : Nat) : Operation → Option Action
  | .act handle a => if s.handles[handle]? = some bus then some a else none
  | _ => none

/-- What is done with a bus through any of its handles, one operation after another. -/
def actionsOn (bus : Nat) : Buses → List Operation → List Action
  | _, [] => []
  | s, op :: ops => (s.actionOn? bus op).toList ++ actionsOn bus (s.step op) ops

theorem state_step (s : Buses) (op : Operation) (bus : Nat) :
    (s.step op).state bus = (s.actionOn? bus op).toList.foldl InUse.act (s.state bus) := by
  cases op with
  | new => rfl
  | clone handle => rfl
  | act handle a =>
    rw [step, actionOn?]
    cases hHandle : s.handles[handle]? with
    | none => rfl
    | some other =>
      by_cases hSame : other = bus
      · subst hSame
        simp
      · simp [hSame, Function.update_of_ne (Ne.symm hSame)]

/-- Of what is done with buses, each sees what goes through its own handles. -/
theorem state_after (s : Buses) (ops : List Operation) (bus : Nat) :
    (ops.foldl step s).state bus = (actionsOn bus s ops).foldl InUse.act (s.state bus) := by
  induction ops generalizing s with
  | nil => rfl
  | cons op ops ih =>
    rw [actionsOn, List.foldl_append, ← state_step]
    exact ih (s.step op)

end Buses

def busAfter (ops : List Operation) (bus : Nat) : InUse := (ops.foldl Buses.step .initial).state bus

def doneWith (ops : List Operation) (bus : Nat) : List Action := Buses.actionsOn bus .initial ops

/-- Whatever is done with buses and through which handles, a live listener has received what was
published on its bus since it subscribed, in order and once. The list of a bus is empty unless a
listener is live, or one went away and nothing was published after that. -/
theorem hands_on_what_is_published (ops : List Operation) (bus : Nat) :
    (∀ id log, (busAfter ops bus).received? id = some log ↔
      ∃ since, Since (doneWith ops bus) id since ∧ .drop id ∉ since ∧ log = published since) ∧
    ((busAfter ops bus).bus.hasListeners = true ↔
      ∃ id since, Since (doneWith ops bus) id since ∧
        (.drop id ∉ since ∨ WentUnnoticed since id)) := by
  have hDelivered := delivered_acts (doneWith ops bus)
  rw [busAfter, Buses.state_after]
  exact ⟨hDelivered.received, InUse.hasListeners_iff.trans (exists_congr hDelivered.lists)⟩

example :
    let b := (new.subscribe.2.subscribe.2.subscribe.2.drop 1).publishAll [.leds 3, .pc 8]
    b.pending? 0 = some [.leds 3, .pc 8] ∧ b.pending? 1 = none ∧
      b.pending? 2 = some [.leds 3, .pc 8] := by
  decide

end NiosBoard.EventBus
