import Alkali.Dependency.Handlers
import Alkali.Library.Decimal
import Alkali.Netronome.Dispatch

/-!
# Replicas of handlers

`HandlerReplicationPass` clones a handler for each of its instances, and writes on the events
that a clone returns to which replicas of the next handler they go. This comes from the ports
that the controllers connect, by a map whose keys are the name of a clone and an event.
-/

namespace Alkali.Netronome

open List Fallible

open HandlerDependencyAnalysis

/-! ## Connections -/

/-- A port, with the number of an instance of the handler. -/
structure PortAttr where
  handler : String
  atom : String
  instanceNumber : Int
  deriving DecidableEq, Repr

/-- A `ConnectOp`; its ports are constants. -/
structure ConnectOp where
  method : String
  ins : List PortAttr
  outs : List PortAttr
  parameters : List String
  deriving DecidableEq, Repr

open ConnectOp

inductive SprayInfo
  | roundRobin
  | partition (desc : String)
  deriving DecidableEq, Repr

def SprayInfo.toString : SprayInfo → String
  | roundRobin => "ROUND_ROBIN "
  | partition desc => "PARTITION " ++ desc

/-- The name of a clone, from a port. -/
def portToHandlerName (port : PortAttr) : String :=
  "__handler_" ++ port.handler ++ "_" ++ port.atom ++ "_" ++ toString (port.instanceNumber + 1)

/-- `qMap`: the replicas for a clone and an event, and how to choose one. -/
abbrev QMap := String × String → Option (SprayInfo × List Int)

namespace ConnectOp

variable (op : ConnectOp)

/-- The loops over the output and the input ports. -/
def pairs : List (PortAttr × PortAttr) :=
  op.outs.flatMap fun portOut => op.ins.map fun portIn => (portIn, portOut)

/-- There may be no parameter to read. -/
def sprayInfo : Option SprayInfo :=
  if op.method = "Queue" then some .roundRobin else op.parameters.head?.map .partition

def addPair (qMap : QMap) (p : PortAttr × PortAttr) : Option QMap :=
  let k := (portToHandlerName p.1, p.2.handler)
  op.sprayInfo.map fun spray => Function.update qMap k
    (some (spray, ((qMap k).map Prod.snd).getD [] ++ [1 + p.2.instanceNumber]))

def addTo (qMap : QMap) : Option QMap :=
  if op.method = "Queue" ∨ op.method = "PartitionByScope" then op.pairs.foldlM op.addPair qMap
  else none

/-- What the pass asserts of a connection. -/
def Accepted : Prop :=
  op.method = "Queue" ∨ op.method = "PartitionByScope" ∧ (op.pairs = [] ∨ op.parameters ≠ [])

end ConnectOp

/-! ## The pass -/

/-- A function of the module. Controllers have connections. -/
structure Func where
  func : ModuleFunc
  connects : List ConnectOp

/-- A function of the result. The attributes `enqInfo` and `sprayInfo` are on its `InitOp`s. -/
structure Replica where
  func : ModuleFunc
  connects : List ConnectOp
  location : Option String
  prevEvent : Option String
  infos : List (PlainOp × List Int × String)

/-- The `InitOp` of a struct that defines the operand of a `ReturnOp`, whether it is an event,
and the struct's name. -/
def returnedInit (f : FuncOp) (ret : PlainOp) : Option (PlainOp × Bool × String) :=
  ((ret.operands.head?.bind f.definingOp).map Operation.inner).bind fun init =>
    match init.kind with
    | .init (.struct isEvent _ name) => some (init, isEvent, name)
    | _ => none

namespace Func

variable (f : Func)

def isController : Bool := f.func.type == .controller && !f.func.isExtern

/-- A clone; the replicas are counted from one. -/
def replica (location : String) (i : Nat) : Replica where
  func := { f.func with
    func := { f.func.func with name := f.func.func.name ++ "_" ++ toString (i + 1) } }
  connects := f.connects
  location := some location
  prevEvent := none
  infos := []

/-- The clones of a handler; the code takes `instances` to be there. -/
def replicas : Option (List Replica) :=
  f.func.instances.map fun instances => instances.zipIdx.map fun x => f.replica x.1 x.2

/-- A function that is no handler stays. On a controller the pass notes the first event. -/
def kept : Replica where
  func := f.func
  connects := f.connects
  location := none
  prevEvent :=
    if f.isController then (f.connects.flatMap pairs).head?.map fun p => p.1.handler
    else none
  infos := []

end Func

variable (funcs : List Func)

/-- The connections of all controllers. -/
def connectOps : List ConnectOp :=
  (funcs.filter Func.isController).flatMap Func.connects

/-- The pairs of ports that are connected. -/
def joined : List (PortAttr × PortAttr) :=
  (connectOps funcs).flatMap pairs

def qMapOf : Option QMap :=
  (connectOps funcs).foldlM (fun qMap op => op.addTo qMap) fun _ => none

namespace Replica

variable (g : Replica)

/-- The attributes for a `ReturnOp`. -/
def setInfo (qMap : QMap) (funcOp : FuncOp) (g : Replica) (ret : PlainOp) : Option Replica :=
  (returnedInit funcOp ret).map fun x =>
    match qMap (funcOp.name, x.2.2) with
    | none => g
    | some (spray, queues) => { g with infos := (x.1, queues, spray.toString) :: g.infos }

def setInfos (qMap : QMap) : Option Replica :=
  g.func.func.returnOps.foldlM (setInfo qMap g.func.func) g

def enqInfo (init : PlainOp) : Option (List Int) := (g.infos.lookup init).map Prod.fst

end Replica

/-- The pass. The clones stand at the end of the module. -/
def runOnOperation : Option (List Replica) := do
  let toInsert ← (funcs.filter fun f => f.func.isStage).mapM Func.replicas
  let qMap ← qMapOf funcs
  let handlers ← toInsert.flatten.mapM fun g => g.setInfos qMap
  some ((funcs.filter fun f => !f.func.isStage).map Func.kept ++ handlers)

/-- A module; the name of a handler is made of its event and its atom. -/
structure Module where
  funcs : List Func
  named : ∀ f ∈ funcs, f.func.isStage →
    ∃ n, handlerName f.func = some n ∧ f.func.func.name = n.mangle

/-! ## What it is for -/

/-- The handler of a returned event. -/
def target (f : FuncOp) (init : PlainOp) (event : String) : HandlerFullName :=
  let name := (f.fullName event init.operands).getD ⟨event, ""⟩
  ((lookupHandler (handlersOf (funcs.map Func.func)) name).bind handlerName).getD name

/-- The port of a replica. -/
def ownPort (n : HandlerFullName) (i : Nat) : PortAttr := ⟨n.event, n.atom, i⟩

/-- The name of a replica. -/
def replicaName (n : HandlerFullName) (i : Nat) : String := n.mangle ++ "_" ++ toString (i + 1)

section Conditions

variable (pairs : List (PortAttr × PortAttr)) (n : HandlerFullName) (i : Nat) (event : String)
  (t : HandlerFullName)

/-- An attribute that lists, without repetition, the replicas of the target that are joined to a
replica, and that is there if the replica is joined to the event. -/
structure Informs (info : Option (List Int)) : Prop where
  nodup : ∀ l, info = some l → l.Nodup
  exact : ∀ l, info = some l → ∀ r, r ∈ l ↔ ∃ p ∈ pairs, p.1 = ownPort n i ∧
    p.2.handler = t.event ∧ p.2.atom = t.atom ∧ 1 + p.2.instanceNumber = r
  present : (∃ p ∈ pairs, p.1 = ownPort n i ∧ p.2.handler = event) → info.isSome

/-- Every handler has its replicas, and their returned events have the replicas to go to. -/
structure Distributes (funcs : List Func) (out : List Replica) : Prop where
  replicas : ∀ f ∈ funcs, f.func.isStage → ∀ instances, f.func.instances = some instances →
    ∀ i location, instances[i]? = some location → ∃ g ∈ out,
      g.func = (f.replica location i).func ∧ g.location = some location
  informs : ∀ g ∈ out, g.func.isStage → ∀ n i, handlerName g.func = some n →
    g.func.func.name = replicaName n i → ∀ ret ∈ g.func.func.returnOps, ∀ init event,
      returnedInit g.func.func ret = some (init, true, event) →
      Informs (joined funcs) n i event (target funcs g.func.func init event) (g.enqInfo init)

/-! ## When it works -/

/-- What the pass asserts of a module. -/
structure Accepted (funcs : List Func) : Prop where
  instances : ∀ f ∈ funcs, f.func.isStage → f.func.instances.isSome
  connects : ∀ op ∈ connectOps funcs, op.Accepted
  returns : ∀ f ∈ funcs, f.func.isStage → f.func.instances ≠ some [] →
    ∀ ret ∈ f.func.func.returnOps, (returnedInit f.func.func ret).isSome

/-- No port of the replica, and none that is spelled like it, is joined to the event. -/
def Unjoined : Prop :=
  ∀ p ∈ pairs, p.2.handler = event → p.1 ≠ ownPort n i ∧ portToHandlerName p.1 ≠ replicaName n i

/-- The handler has an atom. The ports that are spelled like that of the replica and joined to
the event are the port itself, they are joined to the target, and to no replica of it twice. -/
structure JoinedOnce : Prop where
  atom : n.atom ≠ ""
  own : ∀ p ∈ pairs, portToHandlerName p.1 = replicaName n i → p.2.handler = event →
    p.1 = ownPort n i ∧ p.2.atom = t.atom
  once : ((pairs.filter fun p => p.1 = ownPort n i ∧ p.2.handler = event).map
    fun p => p.2.instanceNumber).Nodup

/-- The handler has no atom. Other handlers have ports that are spelled like the name of the
replica, and they are joined to exactly the replicas that the replica itself is joined to. -/
structure Shadowed : Prop where
  atom : n.atom = ""
  spelled : ∃ p ∈ pairs, portToHandlerName p.1 = replicaName n i ∧ p.2.handler = event
  once : ((pairs.filter fun p => portToHandlerName p.1 = replicaName n i ∧
    p.2.handler = event).map fun p => p.2.instanceNumber).Nodup
  same : ∀ r, (∃ p ∈ pairs, portToHandlerName p.1 = replicaName n i ∧ p.2.handler = event ∧
      p.2.instanceNumber = r) ↔
    ∃ p ∈ pairs, p.1 = ownPort n i ∧ p.2.handler = event ∧ p.2.atom = t.atom ∧
      p.2.instanceNumber = r

/-- The condition on a returned event of a replica. -/
def Joins : Prop :=
  Unjoined pairs n i event ∨ JoinedOnce pairs n i event t ∨ Shadowed pairs n i event t

end Conditions

/-- The condition on all replicas. -/
def Connected : Prop :=
  ∀ f ∈ funcs, f.func.isStage → ∀ instances, f.func.instances = some instances →
    ∀ i < instances.length, ∀ n, handlerName f.func = some n →
      ∀ ret ∈ f.func.func.returnOps, ∀ init event,
        returnedInit f.func.func ret = some (init, true, event) →
        Joins (joined funcs) n i event (target funcs f.func.func init event)

/-! ## The map -/

variable (pairs : List (PortAttr × PortAttr))

/-- What the pairs put under a key. -/
def collected (k : String × String) : List Int :=
  (pairs.filter fun p => (portToHandlerName p.1, p.2.handler) = k).map
    fun p => 1 + p.2.instanceNumber

/-- The entry of a key. -/
def entryOf (l : List Int) : Option (List Int) := if l = [] then none else some l

def Collects (qMap : QMap) : Prop :=
  ∀ k, (qMap k).map Prod.snd = entryOf (collected pairs k)

theorem getD_entryOf (l : List Int) : (entryOf l).getD [] = l := by
  rw [entryOf]
  split
  · rename_i h
    rw [h]
    rfl
  · rfl

variable {qMap : QMap}
variable {op : ConnectOp} {qMap' : QMap} {out : List Replica}

theorem Collects.addPair {pairs : List (PortAttr × PortAttr)} {p : PortAttr × PortAttr}
    (hq : Collects pairs qMap) (h : op.addPair qMap p = some qMap') :
    Collects (pairs ++ [p]) qMap' := by
  obtain ⟨spray, -, rfl⟩ := Option.map_eq_some_iff.mp h
  intro k
  by_cases hk : k = (portToHandlerName p.1, p.2.handler)
  · subst hk
    rw [Function.update_self, hq, getD_entryOf]
    simp [collected, entryOf]
  · rw [Function.update_of_ne hk, hq]
    simp [collected, Ne.symm hk]

theorem Collects.addTo {pairs : List (PortAttr × PortAttr)} (hq : Collects pairs qMap)
    (h : op.addTo qMap = some qMap') : Collects (pairs ++ op.pairs) qMap' := by
  rw [ConnectOp.addTo] at h
  split at h
  · refine foldlM_rule (P := fun done q => Collects (pairs ++ done) q) ?_ ?_ h
    · rwa [append_nil]
    · intro done p s t hs hstep
      rw [← append_assoc]
      exact hs.addPair hstep
  · cases h

theorem collects_of_qMapOf {funcs : List Func} (h : qMapOf funcs = some qMap) :
    Collects (joined funcs) qMap := by
  refine foldlM_rule (P := fun done q => Collects (done.flatMap pairs) q)
    ?_ ?_ h
  · intro k
    rfl
  · intro done op s t hs hstep
    rw [flatMap_append, flatMap_singleton]
    exact hs.addTo hstep

theorem exists_addTo_iff (op : ConnectOp) (qMap : QMap) :
    (∃ q, op.addTo qMap = some q) ↔ op.Accepted := by
  have hpair : ∀ (q : QMap) p, (∃ t, op.addPair q p = some t) ↔ op.sprayInfo.isSome := by
    intro q p
    rw [addPair]
    cases op.sprayInfo <;> simp
  rw [addTo, ConnectOp.Accepted]
  by_cases hq : op.method = "Queue"
  · rw [if_pos (.inl hq), exists_foldlM_iff hpair]
    simp [sprayInfo, hq]
  · by_cases hpart : op.method = "PartitionByScope"
    · rw [if_pos (.inr hpart), exists_foldlM_iff hpair]
      rw [sprayInfo, if_neg hq]
      cases op.pairs with
      | nil => simp [hpart]
      | cons p pairs =>
        rw [forall_mem_cons]
        cases op.parameters <;> simp [hpart]
    · simp [hq, hpart]

theorem exists_qMapOf_iff :
    (∃ qMap, qMapOf funcs = some qMap) ↔ ∀ op ∈ connectOps funcs, op.Accepted :=
  exists_foldlM_iff fun qMap op => exists_addTo_iff op qMap

/-! ## Names -/

section Names

variable {n : HandlerFullName}

theorem portToHandlerName_ownPort (hatom : n.atom ≠ "") (i : Nat) :
    portToHandlerName (ownPort n i) = replicaName n i := by
  have hnum : toString ((i : Int) + 1) = toString (i + 1) := rfl
  rw [portToHandlerName, ownPort, replicaName, HandlerFullName.mangle, if_neg hatom]
  simp only [hnum, String.append_assoc]

/-- Without an atom the name from the port has a second underscore. -/
theorem portToHandlerName_ownPort_ne (hatom : n.atom = "") (i : Nat) :
    portToHandlerName (ownPort n i) ≠ replicaName n i := by
  intro h
  have hnum : toString ((i : Int) + 1) = toString (i + 1) := rfl
  rw [portToHandlerName, ownPort, replicaName, HandlerFullName.mangle, if_pos hatom, hatom] at h
  have hlen := congrArg String.length h
  simp only [hnum, String.length_append] at hlen
  simp at hlen

theorem replicaName_inj {i j : Nat} (h : replicaName n i = replicaName n j) : i = j := by
  rw [replicaName, replicaName, String.append_right_inj] at h
  exact Nat.add_right_cancel (Decimal.toString_inj.mp h)

theorem target_event (funcs : List Func) (f : FuncOp) (init : PlainOp) (event : String) :
    (target funcs f init event).event = event := by
  have hname : ((f.fullName event init.operands).getD ⟨event, ""⟩).event = event := by
    unfold FuncOp.fullName
    split
    · rfl
    · split
      · split <;> rfl
      · rfl
  have hfind : ∀ {handlers name g}, findHandler handlers name = some g →
      handlerName g = some name := by
    intro handlers name g h
    have hg := find?_some h
    exact of_decide_eq_true hg
  rw [target]
  obtain hnone | ⟨g, hg⟩ := Option.eq_none_or_eq_some (lookupHandler
    (handlersOf (funcs.map Func.func)) ((f.fullName event init.operands).getD ⟨event, ""⟩))
  · simp only [hnone]
    exact hname
  · have hlk := hg
    rw [lookupHandler, Option.or_eq_some_iff] at hlk
    rcases hlk with h | ⟨-, h⟩ <;>
    · simp only [hg, Option.bind_some, hfind h]
      exact hname

end Names

/-! ## The attribute of a replica -/

section Attribute

variable {pairs : List (PortAttr × PortAttr)} {n t : HandlerFullName} {i : Nat} {event : String}

theorem mem_collected {r : Int} : r ∈ collected pairs (replicaName n i, event) ↔
    ∃ p ∈ pairs, portToHandlerName p.1 = replicaName n i ∧ p.2.handler = event ∧
      1 + p.2.instanceNumber = r := by
  simp only [collected, mem_map, mem_filter, decide_eq_true_eq, Prod.mk.injEq, and_assoc]

theorem collected_eq_map : collected pairs (replicaName n i, event) =
    ((pairs.filter fun p => portToHandlerName p.1 = replicaName n i ∧ p.2.handler = event).map
      fun p => p.2.instanceNumber).map (1 + ·) := by
  rw [map_map, collected]
  simp only [Prod.mk.injEq]
  rfl

theorem nodup_collected_iff : (collected pairs (replicaName n i, event)).Nodup ↔
    ((pairs.filter fun p => portToHandlerName p.1 = replicaName n i ∧ p.2.handler = event).map
      fun p => p.2.instanceNumber).Nodup := by
  rw [collected_eq_map]
  exact ⟨List.Nodup.of_map _, List.Nodup.map fun _ _ h => Int.add_left_cancel h⟩

theorem entryOf_eq_some {l l' : List Int} : entryOf l = some l' ↔ l = l' ∧ l ≠ [] := by
  rw [entryOf]
  split <;> simp_all

theorem collected_eq_nil (h : Unjoined pairs n i event) :
    collected pairs (replicaName n i, event) = [] := by
  refine eq_nil_iff_forall_not_mem.mpr fun r hr => ?_
  obtain ⟨p, hp, hname, hev, -⟩ := mem_collected.mp hr
  exact (h p hp hev).2 hname

theorem Unjoined.informs (h : Unjoined pairs n i event) :
    Informs pairs n i event t (entryOf (collected pairs (replicaName n i, event))) := by
  rw [collected_eq_nil h]
  refine ⟨fun l hl => ?_, fun l hl => ?_, ?_⟩
  · cases hl
  · cases hl
  · rintro ⟨p, hp, hpown, hev⟩
    exact absurd hpown (h p hp hev).1

theorem informs_collected (hnd : (collected pairs (replicaName n i, event)).Nodup)
    (hmem : ∀ r, r ∈ collected pairs (replicaName n i, event) ↔ ∃ p ∈ pairs, p.1 = ownPort n i ∧
      p.2.handler = t.event ∧ p.2.atom = t.atom ∧ 1 + p.2.instanceNumber = r)
    (hpresent : ∀ p ∈ pairs, p.1 = ownPort n i → p.2.handler = event →
      collected pairs (replicaName n i, event) ≠ []) :
    Informs pairs n i event t (entryOf (collected pairs (replicaName n i, event))) := by
  refine ⟨fun l hl => ?_, fun l hl => ?_, ?_⟩
  · rwa [← (entryOf_eq_some.mp hl).1]
  · rwa [← (entryOf_eq_some.mp hl).1]
  · rintro ⟨p, hp, hpown, hev⟩
    rw [entryOf, if_neg (hpresent p hp hpown hev)]
    rfl

theorem filter_own (hown : ∀ p : PortAttr × PortAttr, p.1 = ownPort n i →
      portToHandlerName p.1 = replicaName n i)
    (hself : ∀ p ∈ pairs, portToHandlerName p.1 = replicaName n i → p.2.handler = event →
      p.1 = ownPort n i ∧ p.2.atom = t.atom) :
    (pairs.filter fun p => p.1 = ownPort n i ∧ p.2.handler = event) =
      pairs.filter fun p => portToHandlerName p.1 = replicaName n i ∧ p.2.handler = event := by
  refine filter_congr fun p hp => decide_eq_decide.mpr ⟨fun h => ?_, fun h => ?_⟩
  · exact ⟨hown p h.1, h.2⟩
  · exact ⟨(hself p hp h.1 h.2).1, h.2⟩

/-- A handler with an atom: its port and its replica have the same name. -/
theorem informs_iff_of_atom (hatom : n.atom ≠ "") (ht : t.event = event) :
    Informs pairs n i event t (entryOf (collected pairs (replicaName n i, event))) ↔
      Unjoined pairs n i event ∨ JoinedOnce pairs n i event t := by
  have hown : ∀ p : PortAttr × PortAttr, p.1 = ownPort n i →
      portToHandlerName p.1 = replicaName n i := fun p hp => by
    rw [hp, portToHandlerName_ownPort hatom]
  constructor
  · intro h
    by_cases hnil : collected pairs (replicaName n i, event) = []
    · refine .inl fun p hp hev => ?_
      have hname : portToHandlerName p.1 ≠ replicaName n i := fun hname =>
        not_mem_nil (hnil ▸ mem_collected.mpr ⟨p, hp, hname, hev, rfl⟩)
      exact ⟨fun hp => hname (hown p hp), hname⟩
    · refine .inr ?_
      have hsome := entryOf_eq_some.mpr ⟨rfl, hnil⟩
      have hnd := nodup_collected_iff.mp (h.nodup _ hsome)
      have hself : ∀ p ∈ pairs, portToHandlerName p.1 = replicaName n i → p.2.handler = event →
          p.1 = ownPort n i ∧ p.2.atom = t.atom := by
        intro p hp hname hev
        obtain ⟨q, hq, hqown, hqevent, hqatom, hnum⟩ := (h.exact _ hsome _).mp
          (mem_collected.mpr ⟨p, hp, hname, hev, rfl⟩)
        have heq : q = p := inj_on_of_nodup_map hnd
          (mem_filter.mpr ⟨hq, by simp [hown q hqown, hqevent, ht]⟩)
          (mem_filter.mpr ⟨hp, by simp [hname, hev]⟩) (Int.add_left_cancel hnum)
        exact heq ▸ ⟨hqown, hqatom⟩
      refine ⟨hatom, hself, ?_⟩
      rwa [filter_own hown hself]
  · rintro (h | h)
    · exact h.informs
    · refine informs_collected ?_ (fun r => ?_) fun p hp hpown hev =>
        ne_nil_of_mem (mem_collected.mpr ⟨p, hp, hown p hpown, hev, rfl⟩)
      · rw [nodup_collected_iff, ← filter_own hown h.own]
        exact h.once
      · rw [mem_collected, ht]
        constructor
        · rintro ⟨p, hp, hname, hev, hr⟩
          obtain ⟨hpown, hpatom⟩ := h.own p hp hname hev
          exact ⟨p, hp, hpown, hev, hpatom, hr⟩
        · rintro ⟨p, hp, hpown, hev, -, hr⟩
          exact ⟨p, hp, hown p hpown, hev, hr⟩

/-- A handler without an atom: no port of its has the name of its replica. -/
theorem informs_iff_of_no_atom (hatom : n.atom = "") (ht : t.event = event) :
    Informs pairs n i event t (entryOf (collected pairs (replicaName n i, event))) ↔
      Unjoined pairs n i event ∨ Shadowed pairs n i event t := by
  constructor
  · intro h
    by_cases hnil : collected pairs (replicaName n i, event) = []
    · refine .inl fun p hp hev => ⟨fun hpown => ?_, fun hname => ?_⟩
      · have hsome := h.present ⟨p, hp, hpown, hev⟩
        rw [entryOf, if_pos hnil] at hsome
        cases hsome
      · exact not_mem_nil (hnil ▸ mem_collected.mpr ⟨p, hp, hname, hev, rfl⟩)
    · refine .inr ?_
      have hsome := entryOf_eq_some.mpr ⟨rfl, hnil⟩
      obtain ⟨r, hr⟩ := exists_mem_of_ne_nil _ hnil
      obtain ⟨p, hp, hname, hev, -⟩ := mem_collected.mp hr
      refine ⟨hatom, ⟨p, hp, hname, hev⟩, nodup_collected_iff.mp (h.nodup _ hsome), fun r => ?_⟩
      have hexact := h.exact _ hsome (1 + r)
      rw [mem_collected, ht] at hexact
      simpa only [Int.add_right_inj] using hexact
  · rintro (h | h)
    · exact h.informs
    · obtain ⟨p, hp, hname, hev⟩ := h.spelled
      refine informs_collected (nodup_collected_iff.mpr h.once) (fun r => ?_) fun _ _ _ _ =>
        ne_nil_of_mem (mem_collected.mpr ⟨p, hp, hname, hev, rfl⟩)
      have hshift : ∀ x : Int, 1 + x = r ↔ x = r - 1 := fun x => by omega
      rw [mem_collected, ht]
      simp only [hshift]
      exact h.same (r - 1)

/-- The attribute is right if and only if the connections satisfy the condition. -/
theorem informs_iff (ht : t.event = event) :
    Informs pairs n i event t (entryOf (collected pairs (replicaName n i, event))) ↔
      Joins pairs n i event t := by
  by_cases hatom : n.atom = ""
  · rw [informs_iff_of_no_atom hatom ht, Joins]
    exact or_congr_right ⟨.inr, fun h => h.resolve_left fun h => h.atom hatom⟩
  · rw [informs_iff_of_atom hatom ht, Joins]
    exact or_congr_right ⟨.inl, fun h => h.resolve_right fun h => hatom h.atom⟩

end Attribute

/-! ## The replicas -/

section Replicas

variable {funcs : List Func} {qMap : QMap} {g g' : Replica}
variable {isEvent : Bool} {event : String} {out : List Replica}

theorem kind_of_returnedInit {f : FuncOp} {ret init : PlainOp}
    (h : returnedInit f ret = some (init, isEvent, event)) :
    ∃ elementTypes, init.kind = .init (.struct isEvent elementTypes event) := by
  obtain ⟨op, -, hop⟩ := Option.bind_eq_some_iff.mp h
  cases hkind : op.kind with
  | init ty =>
    cases ty with
    | struct isEvent' elementTypes name =>
      rw [hkind] at hop
      cases hop
      exact ⟨elementTypes, hkind⟩
    | _ =>
      rw [hkind] at hop
      cases hop
  | _ =>
    rw [hkind] at hop
    cases hop

/-- The attributes for a `ReturnOp`, if the map has an entry for its event. -/
def infoOf (qMap : QMap) (f : FuncOp) (ret : PlainOp) : Option (PlainOp × List Int × String) :=
  (returnedInit f ret).bind fun x => (qMap (f.name, x.2.2)).map fun e => (x.1, e.2, e.1.toString)

theorem setInfos_eq (h : g.setInfos qMap = some g') : g' = { g with infos :=
      (g.func.func.returnOps.filterMap (infoOf qMap g.func.func)).reverse ++ g.infos } := by
  refine foldlM_rule (P := fun done s => s = { g with infos :=
    (done.filterMap (infoOf qMap g.func.func)).reverse ++ g.infos }) rfl ?_ h
  rintro done ret s t rfl ht
  obtain ⟨x, hx, rfl⟩ := Option.map_eq_some_iff.mp ht
  rw [filterMap_append]
  cases hq : qMap (g.func.func.name, x.2.2) <;> simp [infoOf, hx, hq]

/-- A returned event has the entry of the map. -/
theorem enqInfo_of_setInfos (hg : g.infos = []) (h : g.setInfos qMap = some g')
    {ret init : PlainOp} (hret : ret ∈ g.func.func.returnOps)
    (hinit : returnedInit g.func.func ret = some (init, isEvent, event)) :
    g'.enqInfo init = (qMap (g.func.func.name, event)).map Prod.snd := by
  rw [setInfos_eq h, Replica.enqInfo, hg, append_nil]
  cases hlk : lookup init
    (g.func.func.returnOps.filterMap (infoOf qMap g.func.func)).reverse with
  | none =>
    cases hq : qMap (g.func.func.name, event) with
    | none => rfl
    | some e =>
      have hinfo : infoOf qMap g.func.func ret = some (init, e.2, e.1.toString) := by
        simp [infoOf, hinit, hq]
      have hne := lookup_eq_none_iff.mp hlk _
        (mem_reverse.mpr (mem_filterMap.mpr ⟨ret, hret, hinfo⟩))
      simp at hne
  | some x =>
    obtain ⟨l₁, l₂, hl, -⟩ := lookup_eq_some_iff.mp hlk
    obtain ⟨ret', -, hinfo⟩ := mem_filterMap.mp
      (mem_reverse.mp (hl ▸ mem_append_right l₁ mem_cons_self))
    obtain ⟨⟨init', isEvent', event'⟩, hinit', hent⟩ := Option.bind_eq_some_iff.mp hinfo
    obtain ⟨e, he, heq⟩ := Option.map_eq_some_iff.mp hent
    cases heq
    -- the name of the event is that of the struct type
    obtain ⟨_, hkind⟩ := kind_of_returnedInit hinit
    obtain ⟨_, hkind'⟩ := kind_of_returnedInit hinit'
    rw [hkind] at hkind'
    cases hkind'
    rw [he]
    rfl

theorem exists_setInfos_iff : (∃ g', g.setInfos qMap = some g') ↔
    ∀ ret ∈ g.func.func.returnOps, (returnedInit g.func.func ret).isSome :=
  exists_foldlM_iff fun s ret => by
    rw [Replica.setInfo]
    cases returnedInit g.func.func ret <;> simp

theorem runOnOperation_eq_some_iff : runOnOperation funcs = some out ↔
    ∃ toInsert, (funcs.filter fun f => f.func.isStage).mapM Func.replicas = some toInsert ∧
      ∃ qMap, qMapOf funcs = some qMap ∧
        ∃ handlers, (toInsert.flatten.mapM fun g => g.setInfos qMap) = some handlers ∧
          (funcs.filter fun f => !f.func.isStage).map Func.kept ++ handlers = out := by
  simp only [runOnOperation, Option.bind_eq_bind, Option.bind_eq_some_iff, Option.some.injEq]

/-- A handler with an instance at a location. -/
def HasInstance (funcs : List Func) (f : Func) (i : Nat) (location : String) : Prop :=
  f ∈ funcs ∧ f.func.isStage ∧
    ∃ instances, f.func.instances = some instances ∧ instances[i]? = some location

/-- The clones. -/
theorem mem_toInsert_iff {toInsert : List (List Replica)}
    (h : (funcs.filter fun f => f.func.isStage).mapM Func.replicas = some toInsert) :
    g ∈ toInsert.flatten ↔
      ∃ f i location, HasInstance funcs f i location ∧ f.replica location i = g := by
  rw [mem_flatten]
  constructor
  · rintro ⟨clones, hclones, hg⟩
    obtain ⟨f, hf, hreps⟩ := (mem_mapM_iff h).mp hclones
    obtain ⟨hf, hstage⟩ := mem_filter.mp hf
    obtain ⟨instances, hinst, rfl⟩ := Option.map_eq_some_iff.mp hreps
    obtain ⟨⟨location, i⟩, hx, rfl⟩ := mem_map.mp hg
    exact ⟨f, i, location, ⟨hf, hstage, instances, hinst, mk_mem_zipIdx_iff_getElem?.mp hx⟩, rfl⟩
  · rintro ⟨f, i, location, ⟨hf, hstage, instances, hinst, hloc⟩, rfl⟩
    refine ⟨instances.zipIdx.map fun x => f.replica x.1 x.2, (mem_mapM_iff h).mpr
      ⟨f, mem_filter.mpr ⟨hf, hstage⟩, by rw [Func.replicas, hinst]; rfl⟩, ?_⟩
    exact mem_map.mpr ⟨(location, i), mk_mem_zipIdx_iff_getElem?.mpr hloc, rfl⟩

/-- The pass ends if and only if no assertion fails. -/
theorem exists_runOnOperation_iff : (∃ out, runOnOperation funcs = some out) ↔ Accepted funcs := by
  constructor
  · rintro ⟨out, hout⟩
    obtain ⟨toInsert, htoInsert, qMap, hqMap, handlers, hhandlers, -⟩ :=
      runOnOperation_eq_some_iff.mp hout
    refine ⟨fun f hf hstage => ?_, (exists_qMapOf_iff funcs).mp ⟨qMap, hqMap⟩, ?_⟩
    · obtain ⟨clones, hclones⟩ := exists_mapM_iff.mp ⟨_, htoInsert⟩ f
        (mem_filter.mpr ⟨hf, hstage⟩)
      obtain ⟨instances, hinst, -⟩ := Option.map_eq_some_iff.mp hclones
      rw [hinst]
      rfl
    · intro f hf hstage hne ret hret
      obtain ⟨clones, hclones⟩ := exists_mapM_iff.mp ⟨_, htoInsert⟩ f
        (mem_filter.mpr ⟨hf, hstage⟩)
      obtain ⟨instances, hinst, -⟩ := Option.map_eq_some_iff.mp hclones
      cases instances with
      | nil => exact absurd hinst hne
      | cons location instances =>
        have hclone := (mem_toInsert_iff htoInsert).mpr
          ⟨f, 0, location, ⟨hf, hstage, _, hinst, rfl⟩, rfl⟩
        obtain ⟨g', hg'⟩ := exists_mapM_iff.mp ⟨_, hhandlers⟩ _ hclone
        exact exists_setInfos_iff.mp ⟨g', hg'⟩ ret hret
  · intro h
    obtain ⟨toInsert, htoInsert⟩ : ∃ toInsert,
        (funcs.filter fun f => f.func.isStage).mapM Func.replicas = some toInsert := by
      refine exists_mapM_iff.mpr fun f hf => ?_
      obtain ⟨hf, hstage⟩ := mem_filter.mp hf
      obtain ⟨instances, hinst⟩ := Option.isSome_iff_exists.mp (h.instances f hf hstage)
      exact ⟨_, by rw [Func.replicas, hinst]; rfl⟩
    obtain ⟨qMap, hqMap⟩ := (exists_qMapOf_iff funcs).mpr h.connects
    obtain ⟨handlers, hhandlers⟩ : ∃ handlers,
        (toInsert.flatten.mapM fun g => g.setInfos qMap) = some handlers := by
      refine exists_mapM_iff.mpr fun g hg => ?_
      obtain ⟨f, i, location, ⟨hf, hstage, instances, hinst, hloc⟩, rfl⟩ :=
        (mem_toInsert_iff htoInsert).mp hg
      refine exists_setInfos_iff.mpr (h.returns f hf hstage fun hnil => ?_)
      rw [Option.some.inj (hinst.symm.trans hnil)] at hloc
      cases hloc
    exact ⟨_, runOnOperation_eq_some_iff.mpr
      ⟨toInsert, htoInsert, qMap, hqMap, handlers, hhandlers, rfl⟩⟩

/-- The handlers of the result are the clones, and the events that they return have what the
connections put under their names. -/
theorem mem_runOnOperation (h : runOnOperation funcs = some out) :
    (∀ f i location, HasInstance funcs f i location →
      ∃ g ∈ out, g.func = (f.replica location i).func ∧ g.location = some location) ∧
    ∀ g ∈ out, g.func.isStage → ∃ f i location, HasInstance funcs f i location ∧
      g.func = (f.replica location i).func ∧
      ∀ ret ∈ g.func.func.returnOps, ∀ init isEvent event,
        returnedInit g.func.func ret = some (init, isEvent, event) →
          g.enqInfo init = entryOf (collected (joined funcs) (g.func.func.name, event)) := by
  obtain ⟨toInsert, htoInsert, qMap, hqMap, handlers, hhandlers, rfl⟩ :=
    runOnOperation_eq_some_iff.mp h
  constructor
  · intro f i location hf
    have hclone := (mem_toInsert_iff htoInsert).mpr ⟨f, i, location, hf, rfl⟩
    obtain ⟨g, hg⟩ := exists_mapM_iff.mp ⟨_, hhandlers⟩ _ hclone
    refine ⟨g, mem_append_right _ ((mem_mapM_iff hhandlers).mpr ⟨_, hclone, hg⟩), ?_⟩
    rw [setInfos_eq hg]
    exact ⟨rfl, rfl⟩
  · intro g hg hstage
    rcases mem_append.mp hg with hg | hg
    · obtain ⟨f, hf, rfl⟩ := mem_map.mp hg
      have hnot := (mem_filter.mp hf).2
      rw [Bool.not_eq_true'] at hnot
      cases hstage.symm.trans hnot
    · obtain ⟨clone, hclone, hset⟩ := (mem_mapM_iff hhandlers).mp hg
      obtain ⟨f, i, location, hf, rfl⟩ := (mem_toInsert_iff htoInsert).mp hclone
      have hfunc : g.func = (f.replica location i).func := by rw [setInfos_eq hset]
      refine ⟨f, i, location, hf, hfunc, ?_⟩
      rw [hfunc]
      intro ret hret init isEvent event hinit
      rw [enqInfo_of_setInfos rfl hset hret hinit]
      exact collects_of_qMapOf hqMap _

end Replicas

variable (m : Module)

theorem Module.name_replica {f : Func} (hf : f ∈ m.funcs) (hstage : f.func.isStage)
    {n : HandlerFullName} (hn : handlerName f.func = some n) (location : String) (i : Nat) :
    (f.replica location i).func.func.name = replicaName n i := by
  obtain ⟨n', hn', hname⟩ := m.named f hf hstage
  rw [hn] at hn'
  cases hn'
  rw [replicaName, ← hname]
  rfl

theorem connected_of_distributes (hout : runOnOperation m.funcs = some out)
    (h : Distributes m.funcs out) : Connected m.funcs := by
  intro f hf hstage instances hinst i hi n hn ret hret init event hinit
  obtain ⟨hreps, hinfos⟩ := mem_runOnOperation hout
  obtain ⟨⟨gfunc, _, _, _, _⟩, hg, hfunc, -⟩ := hreps f i _
    ⟨hf, hstage, instances, hinst, getElem?_eq_getElem hi⟩
  -- but for its name a clone is the handler
  obtain rfl : gfunc = _ := hfunc
  have hname := m.name_replica hf hstage hn instances[i] i
  have hinforms := h.informs _ hg hstage n i hn hname ret hret init event hinit
  obtain ⟨-, -, -, -, -, hent⟩ := hinfos _ hg hstage
  rw [hent ret hret init true event hinit, hname, informs_iff (target_event _ _ _ _)] at hinforms
  exact hinforms

theorem distributes_of_connected (hout : runOnOperation m.funcs = some out)
    (h : Connected m.funcs) : Distributes m.funcs out := by
  obtain ⟨hreps, hinfos⟩ := mem_runOnOperation hout
  refine ⟨fun f hf hstage instances hinst i location hloc =>
    hreps f i location ⟨hf, hstage, instances, hinst, hloc⟩, ?_⟩
  intro g hg hstage n i hn hname ret hret init event hinit
  obtain ⟨f, j, location, ⟨hf, hfstage, instances, hinst, hloc⟩, hfunc, hent⟩ :=
    hinfos g hg hstage
  rw [hent ret hret init true event hinit, hname, informs_iff (target_event _ _ _ _)]
  rw [hfunc] at hn hret hinit ⊢
  have hname' := m.name_replica hf hfstage hn location j
  obtain rfl : j = i := replicaName_inj (hname'.symm.trans (by rw [← hfunc, hname]))
  have hi : j < instances.length := (List.getElem?_eq_some_iff.mp hloc).1
  exact h f hf hfstage instances hinst j hi n hn ret hret init event hinit

/-- The pass ends, and the returned events of every replica list the replicas of their handler
that are joined to it, if and only if the assertions hold and every replica that is joined to the
event is one of a handler with an atom, whose port alone has its name and is joined to no other
target of the event and to no replica twice. -/
theorem distributes_iff_connected (m : Module) :
    (∃ out, runOnOperation m.funcs = some out ∧ Distributes m.funcs out) ↔
      Accepted m.funcs ∧ Connected m.funcs := by
  constructor
  · rintro ⟨out, hout, h⟩
    exact ⟨exists_runOnOperation_iff.mp ⟨out, hout⟩, connected_of_distributes m hout h⟩
  · rintro ⟨hacc, hconn⟩
    obtain ⟨out, hout⟩ := exists_runOnOperation_iff.mpr hacc
    exact ⟨out, hout, distributes_of_connected m hout hconn⟩

/-! ## A handler without an atom -/

/-- A handler that passes an event on. -/
def passOn : Func where
  func :=
    { id := 0
      func := ⟨"__handler_NET_RECV", [⟨[], [
        .plain ⟨0, .compute "add", [], [(0, .int 32)]⟩,
        .plain ⟨1, .init (.struct true [.int 32] "OUT"), [0], [(1, .struct true [.int 32] "OUT")]⟩,
        .plain ⟨2, .ret, [1], []⟩], 3, .terminate⟩]⟩
      type := .handler, isExtern := false, event := some "NET_RECV", atom := none
      generationIndex := none, instances := some ["cu1"] }
  connects := []

/-- The handler of that event. -/
def outHandler : Func where
  func :=
    { id := 1, func := ⟨"__handler_OUT", []⟩, type := .handler, isExtern := false
      event := some "OUT", atom := none, generationIndex := none, instances := some ["cu2"] }
  connects := []

/-- The controller that connects the two. -/
def outController : Func where
  func :=
    { id := 2, func := ⟨"__controller_OUT", []⟩, type := .controller, isExtern := false
      event := some "OUT", atom := none, generationIndex := none, instances := none }
  connects := [⟨"Queue", [⟨"NET_RECV", "", 0⟩], [⟨"OUT", "", 0⟩], []⟩]

def noAtoms : Module where
  funcs := [passOn, outHandler, outController]
  named := by
    intro f hf hstage
    simp only [mem_cons, not_mem_nil, or_false] at hf
    rcases hf with rfl | rfl | rfl
    · exact ⟨⟨"NET_RECV", ""⟩, rfl, by decide⟩
    · exact ⟨⟨"OUT", ""⟩, rfl, by decide⟩
    · cases hstage

/-- The returned event of a connected handler has no queues. -/
theorem no_queues_without_atom : (∃ out, runOnOperation noAtoms.funcs = some out) ∧
      ¬ ∃ out, runOnOperation noAtoms.funcs = some out ∧ Distributes noAtoms.funcs out := by
  have hrets : passOn.func.func.returnOps = [⟨2, .ret, [1], []⟩] := by decide
  refine ⟨exists_runOnOperation_iff.mpr ⟨fun f hf hstage => ?_, ?_, fun f hf hstage _ => ?_⟩, ?_⟩
  · simp only [noAtoms, mem_cons, not_mem_nil, or_false] at hf
    rcases hf with rfl | rfl | rfl
    · rfl
    · rfl
    · cases hstage
  · intro op hop
    rw [mem_singleton.mp (show op ∈ outController.connects from hop)]
    exact .inl rfl
  · simp only [noAtoms, mem_cons, not_mem_nil, or_false] at hf
    rcases hf with rfl | rfl | rfl
    · rw [hrets]
      intro ret hret
      rw [mem_singleton.mp hret]
      rfl
    · intro ret hret
      cases hret
    · cases hstage
  · rintro ⟨out, hout, h⟩
    have hjoins := connected_of_distributes noAtoms hout h passOn mem_cons_self rfl ["cu1"] rfl 0
      (by decide) ⟨"NET_RECV", ""⟩ rfl ⟨2, .ret, [1], []⟩ (by rw [hrets]; simp) _ "OUT" rfl
    rcases hjoins with h | h | h
    · exact (h _ mem_cons_self rfl).1 rfl
    · exact h.atom rfl
    · obtain ⟨p, hp, hname, -⟩ := h.spelled
      rw [mem_singleton.mp hp] at hname
      exact portToHandlerName_ownPort_ne (n := ⟨"NET_RECV", ""⟩) rfl 0 hname

end Alkali.Netronome
