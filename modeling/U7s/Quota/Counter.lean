import U7s.Lib.Runs
import U7s.Quota.Scopes

/-! The usage counter of a namespace. A section runs under the namespace's lock, one store access a step. A pod is
deleted without the lock, and its removal waits for it. -/

namespace U7s.Quota

open MachineInt

inductive Section where
  | check (name : String) (pod : Json) (todo : List (ResourceQuota × Entry × ℤ))
  | record (pod : Json) (created : Bool) (todo : List ResourceQuota)
  | adjust (pod : Json) (created : Bool) (quota : ResourceQuota) (todo : List Entry) (updates : List (Entry × ℤ))
      (rest : List ResourceQuota)
  | recompute (todo : List ResourceQuota)
  | count (quota : ResourceQuota) (todo : List Entry) (used : List (Entry × ℤ)) (rest : List ResourceQuota)

structure State where
  pods : Pods
  used : String → Entry → Option ℤ
  removed : List Json
  held : Option Section

inductive Action where
  | startCreate (name : String) (pod : Json)
  | startRemove (i : ℕ)
  | startRecompute
  | advance
  | delete (name : String) (body : Json)
  /-- One item of `DeleteCollection`: the removal is recorded whatever the store answers. -/
  | deleteListed (name : String) (body : Json)

section Steps

variable (parseQuantityMilli : String → Option ℤ)

def baseline (s : State) (q : ResourceQuota) (e : Entry) : ℤ :=
  (s.used q.name e).getD (scan parseQuantityMilli q s.pods e)

def exceeded (e : Entry) (limit : ℤ) (pod : Json) (current : ℤ) : Bool :=
  match e.toPodResource with
  | none => current ≥ limit
  | some resource => addI64 current (podResourceMilli parseQuantityMilli pod "requests" resource) > limit

def podCountNewValue (s : State) (q : ResourceQuota) (e : Entry) (created : Bool) : ℤ :=
  match s.used q.name e with
  | some old => if created then (old + 1) % 2 ^ 64 else max (old - 1) 0
  | none => scan parseQuantityMilli q s.pods e

def podResourceMilliNewValue (s : State) (q : ResourceQuota) (e : Entry) (delta : ℤ) : ℤ :=
  match s.used q.name e with
  | some old => addI64 old delta
  | none => scan parseQuantityMilli q s.pods e

def newValue (s : State) (q : ResourceQuota) (e : Entry) (pod : Json) (created : Bool) : ℤ :=
  match e.toPodResource with
  | none => podCountNewValue parseQuantityMilli s q e created
  | some resource =>
    let milli := podResourceMilli parseQuantityMilli pod "requests" resource
    podResourceMilliNewValue parseQuantityMilli s q e (if created then milli else -milli)

def formatted (e : Entry) (v : ℤ) : ℤ := if e.isBytes then v.tdiv 1000 * 1000 else v

def checksFor (quotas : List ResourceQuota) (pod : Json) : List (ResourceQuota × Entry × ℤ) :=
  (quotas.filter (fun q => podMatchesQuotaScope q pod)).flatMap (fun q => q.hard.entries.map (fun h => (q, h.1, h.2)))

def adjusted (q : ResourceQuota) : List Entry :=
  q.hard.keys.filter (fun e => e.toPodResource.isNone) ++ q.hard.keys.filter (fun e => e.toPodResource.isSome)

def writeQuotaUsedUpdates (s : State) (q : ResourceQuota) (updates : List (Entry × ℤ)) : State :=
  { s with used := fun n e => if n = q.name then (updates.lookup e).or (s.used n e) else s.used n e }

def replaceUsed (s : State) (q : ResourceQuota) (used : List (Entry × ℤ)) : State :=
  { s with used := fun n e => if n = q.name then used.lookup e else s.used n e }

def State.hold (s : State) (sec : Section) : State := { s with held := some sec }

def State.release (s : State) : State := { s with held := none }

variable (quotas : List ResourceQuota)

def State.advance (s : State) : Section → State
  | .check name pod ((q, e, limit) :: todo) =>
    if exceeded parseQuantityMilli e limit pod (baseline parseQuantityMilli s q e) then s.release
    else s.hold (.check name pod todo)
  | .check name pod [] =>
    match s.pods.lookup name with
    | some _ => s.release
    | none => { s with pods := s.pods.insert name pod }.hold (.record pod true quotas)
  | .record pod created (q :: todo) =>
    if podMatchesQuotaScope q pod then s.hold (.adjust pod created q (adjusted q) [] todo)
    else s.hold (.record pod created todo)
  | .record _ _ [] => s.release
  | .adjust pod created q (e :: todo) updates rest =>
    s.hold (.adjust pod created q todo
      (updates ++ [(e, formatted e (newValue parseQuantityMilli s q e pod created))]) rest)
  | .adjust pod created q [] updates rest => (writeQuotaUsedUpdates s q updates).hold (.record pod created rest)
  | .recompute (q :: todo) => s.hold (.count q q.hard.keys [] todo)
  | .recompute [] => s.release
  | .count q (e :: todo) used rest =>
    s.hold (.count q todo (used ++ [(e, formatted e (scan parseQuantityMilli q s.pods e))]) rest)
  | .count _ [] [] rest => s.hold (.recompute rest)
  | .count q [] used rest => (replaceUsed s q used).hold (.recompute rest)

def State.step (s : State) : Action → State
  | .startCreate name pod => if s.held.isNone then s.hold (.check name pod (checksFor quotas pod)) else s
  | .startRemove i =>
    match s.held, s.removed[i]? with
    | none, some pod => { s with removed := s.removed.eraseIdx i }.hold (.record pod false quotas)
    | _, _ => s
  | .startRecompute => if s.held.isNone then s.hold (.recompute quotas) else s
  | .advance =>
    match s.held with
    | some sec => s.advance parseQuantityMilli quotas sec
    | none => s
  | .delete name body =>
    match s.pods.lookup name with
    | some _ => { s with pods := s.pods.erase name, removed := s.removed ++ [body] }
    | none => s
  | .deleteListed name body => { s with pods := s.pods.erase name, removed := s.removed ++ [body] }

def State.Within (s : State) : Prop :=
  ∀ q ∈ quotas, ∀ e, ∀ limit ∈ q.hard.lookup e,
    (((podList s.pods).filter (podMatchesQuotaScope q)).map (contribution parseQuantityMilli e)).sum ≤ limit

instance State.Within.decidable (s : State) : Decidable (s.Within parseQuantityMilli quotas) :=
  inferInstanceAs (Decidable (∀ q ∈ quotas, ∀ e, ∀ limit ∈ q.hard.lookup e, _))

end Steps

end U7s.Quota
