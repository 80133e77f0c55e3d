import Mathlib.Logic.Function.Basic
import Mathlib.Order.Basic
import EspClock.Lib.Run

/-!
# Server objects and listeners

`file_server.start` makes a server object, points `g_pServer` to it and registers a listener with the
SDK; `stop`, called by name or by the garbage collector, frees the TCP structure of the object and
clears `g_pServer`. The listener stays registered, and its callback `fs_client_connected` goes through
`g_pServer` whichever listener it runs for. So the pointer is right for every listener exactly as long
as no object is made, stopped or collected once there is a listener.

What the SDK and the allocator answer is part of the events. Only the fields of the object that the
life cycle touches are kept; the receive buffer is the subject of `Session`.
-/

namespace EspClock.FileServer

/-- A server object: `connection` and `tcp` say that the structures are allocated, `metatable` that
the object was handed to Lua as a file server. -/
structure ServerObject where
  connection : Bool
  tcp : Bool
  client : Option Nat
  metatable : Bool

/-- The arguments of `file_server.start`: the port, the integer at the second place and whether the
third is a number. -/
structure StartArgs where
  port : Option Int
  second : Int
  thirdIsNumber : Bool

/-- How far the allocations of a start get, and whether `espconn_accept` registers the listener. An
object without a connection keeps what was in memory for its client. -/
inductive Memory where
  | noObject
  | noConnection (client : Option Nat)
  | noTcp
  | enough (registered : Bool)

/-- The server objects that are allocated, `g_pServer`, the owners of the listeners registered with
the SDK and the `reverse` pointers of the clients. -/
structure Servers where
  object : Nat → Option ServerObject
  created : Nat
  gServer : Option Nat
  listeners : List Nat
  reverse : Nat → Option Nat

inductive LifecycleEvent where
  | start (args : StartArgs) (memory : Memory)
  | stop (server : Nat)
  | collect (server : Nat)
  | connected (listener client : Nat)
  | disconnected (client : Nat)

def StartArgs.Accepted (args : StartArgs) : Prop :=
  args.port.isSome ∧
    (args.thirdIsNumber = true → ¬ (args.second % 65536 < 1 ∨ 28800 < args.second % 65536))

instance (args : StartArgs) : Decidable args.Accepted := inferInstanceAs (Decidable (_ ∧ _))

namespace Servers

def create (st : Servers) (s : ServerObject) : Servers :=
  { st with
    object := Function.update st.object st.created (some s)
    created := st.created + 1
    gServer := some st.created }

def fileServerStart (st : Servers) (args : StartArgs) (memory : Memory) : Servers :=
  if args.Accepted then
    match memory with
    | .noObject => st
    | .noConnection client => st.create ⟨false, false, client, false⟩
    | .noTcp => st.create ⟨false, false, none, false⟩
    | .enough registered =>
      let listeners := if registered then st.listeners ++ [st.created] else st.listeners
      { st.create ⟨true, true, none, true⟩ with listeners := listeners }
  else st

def stop (st : Servers) (server : Nat) (s : ServerObject) : Servers :=
  { st with
    object := Function.update st.object server (some { s with tcp := !s.connection && s.tcp })
    gServer := none }

/-- `file_server_stop`, which takes objects with the right metatable only. -/
def fileServerStop (st : Servers) (server : Nat) : Servers :=
  match st.object server with
  | some s => if s.metatable then st.stop server s else st
  | none => st

/-- The object is collected, after its `__gc` if it has one. -/
def collect (st : Servers) (server : Nat) : Servers :=
  let st := st.fileServerStop server
  { st with object := Function.update st.object server none }

/-- `fs_client_connected`. Through a null or a stale pointer there is nothing to say about it. -/
def fsClientConnected (st : Servers) (client : Nat) : Servers :=
  match st.gServer with
  | none => st
  | some g =>
    match st.object g with
    | none => st
    | some s =>
      if s.client ≠ none then { st with reverse := Function.update st.reverse client none }
      else { st with
        object := Function.update st.object g (some { s with client := some client })
        reverse := Function.update st.reverse client (some g) }

def fsClientDisconnected (st : Servers) (client : Nat) : Servers :=
  match st.reverse client with
  | none => st
  | some server =>
    { st with
      object := Function.update st.object server ((st.object server).map fun s => { s with client := none })
      reverse := Function.update st.reverse client none }

def initial : Servers := ⟨fun _ => none, 0, none, [], fun _ => none⟩

end Servers

def lifecycle : Machine Servers LifecycleEvent Empty :=
  ⟨fun st e =>
    (match e with
      | .start args memory => st.fileServerStart args memory
      | .stop server => st.fileServerStop server
      | .collect server => st.collect server
      | .connected listener client => if listener ∈ st.listeners then st.fsClientConnected client else st
      | .disconnected client => st.fsClientDisconnected client,
    [])⟩

/-! ### What should hold -/

namespace Servers

/-- `g_pServer` points to the allocated owner of every listener that `fs_client_connected` can run for. -/
def Owned (st : Servers) : Prop := ∀ l ∈ st.listeners, st.gServer = some l ∧ (st.object l).isSome

/-- An object of Lua's that was not stopped. -/
def Running (st : Servers) (server : Nat) : Prop :=
  ∃ s, st.object server = some s ∧ s.metatable = true ∧ s.tcp = true

/-- A connection to the server's listener reaches the server. -/
def Serves (st : Servers) (server : Nat) : Prop := server ∈ st.listeners ∧ st.gServer = some server

def Connected (st : Servers) (server client : Nat) : Prop :=
  st.reverse client = some server ∧ ∃ s, st.object server = some s ∧ s.client = some client

end Servers

/-- The end of one server takes nothing from the others that run. -/
def KeepsOthers (st : Servers) (e : LifecycleEvent) : Prop :=
  match e with
  | .stop server | .collect server => ∀ other ≠ server, st.Running other →
      (st.Serves other → (lifecycle.next st e).Serves other) ∧
        ∀ client, st.Connected other client → (lifecycle.next st e).Connected other client
  | _ => True

/-- Once there is a listener, no object is made and none that was handed to Lua is stopped or
collected. -/
def SingleServer (st : Servers) (e : LifecycleEvent) : Prop :=
  st.listeners ≠ [] →
    match e with
    | .start args memory => ¬ (args.Accepted ∧ memory ≠ .noObject)
    | .stop server | .collect server => ¬ ∃ s, st.object server = some s ∧ s.metatable = true
    | _ => True

/-! ### One event -/

/-- The listeners belong to objects that were made before and, if still allocated, handed to Lua. -/
def Servers.Consistent (st : Servers) : Prop :=
  ∀ l ∈ st.listeners, l < st.created ∧ ∀ s, st.object l = some s → s.metatable = true

variable {st : Servers}

/-- An event that changes one object and leaves its metatable alone. -/
theorem Servers.Consistent.of_update {st' : Servers} {server : Nat} {o : Option ServerObject} (h : st.Consistent)
    (hlisteners : st'.listeners = st.listeners) (hcreated : st'.created = st.created)
    (hobject : st'.object = Function.update st.object server o)
    (ho : ∀ s', o = some s' → ∃ s, st.object server = some s ∧ s'.metatable = s.metatable) :
    st'.Consistent := by
  intro l hl
  rw [hlisteners] at hl
  rw [hcreated, hobject]
  refine ⟨(h l hl).1, fun s' hs' => ?_⟩
  by_cases hserver : l = server
  · subst hserver
    rw [Function.update_self] at hs'
    obtain ⟨s, hs, hmetatable⟩ := ho s' hs'
    rw [hmetatable]
    exact (h l hl).2 s hs
  · rw [Function.update_of_ne hserver] at hs'
    exact (h l hl).2 s' hs'

theorem create_consistent (h : st.Consistent) (s : ServerObject) : (st.create s).Consistent := by
  intro l hl
  have hlt := (h l hl).1
  refine ⟨Nat.lt_succ_of_lt hlt, fun s' hs' => ?_⟩
  have hobject : (st.create s).object l = st.object l := Function.update_of_ne (Nat.ne_of_lt hlt) _ _
  exact (h l hl).2 s' (hobject.symm.trans hs')

theorem fileServerStart_consistent (h : st.Consistent) (args : StartArgs) (memory : Memory) :
    (st.fileServerStart args memory).Consistent := by
  unfold Servers.fileServerStart
  split
  · cases memory with
    | noObject => exact h
    | noConnection client => exact create_consistent h _
    | noTcp => exact create_consistent h _
    | enough registered =>
      cases registered with
      | false => exact create_consistent h _
      | true =>
        intro l hl
        rcases List.mem_append.mp hl with hl | hl
        · exact create_consistent h _ l hl
        · obtain rfl := List.mem_singleton.mp hl
          refine ⟨Nat.lt_succ_self _, fun s hs => ?_⟩
          cases (Function.update_self st.created _ st.object).symm.trans hs
          rfl
  · exact h

theorem fileServerStop_consistent (h : st.Consistent) (server : Nat) :
    (st.fileServerStop server).Consistent := by
  unfold Servers.fileServerStop
  split
  next s hs =>
    split
    · refine h.of_update rfl rfl rfl fun s' hs' => ?_
      cases hs'
      exact ⟨s, hs, rfl⟩
    · exact h
  next => exact h

theorem fsClientConnected_consistent (h : st.Consistent) (client : Nat) :
    (st.fsClientConnected client).Consistent := by
  unfold Servers.fsClientConnected
  split
  · exact h
  · split
    · exact h
    next s hs =>
      split
      · exact h
      · refine h.of_update rfl rfl rfl fun s' hs' => ?_
        cases hs'
        exact ⟨s, hs, rfl⟩

/-- Every event keeps the servers consistent. -/
theorem lifecycle_consistent (st : Servers) (e : LifecycleEvent) (h : st.Consistent) :
    (lifecycle.next st e).Consistent := by
  cases e with
  | start args memory => exact fileServerStart_consistent h args memory
  | stop server => exact fileServerStop_consistent h server
  | collect server =>
    exact (fileServerStop_consistent h server).of_update rfl rfl rfl fun s' hs' => nomatch hs'
  | connected listener client =>
    change (if listener ∈ st.listeners then st.fsClientConnected client else st).Consistent
    split
    · exact fsClientConnected_consistent h client
    · exact h
  | disconnected client =>
    change (st.fsClientDisconnected client).Consistent
    unfold Servers.fsClientDisconnected
    split
    · exact h
    · refine h.of_update rfl rfl rfl fun s' hs' => ?_
      obtain ⟨s, hs, rfl⟩ := Option.map_eq_some_iff.mp hs'
      exact ⟨s, hs, rfl⟩

theorem not_owned_of_gServer {st' : Servers} (hne : st.listeners ≠ []) (hsub : st.listeners ⊆ st'.listeners)
    (hg : ∀ l ∈ st.listeners, st'.gServer ≠ some l) : ¬ st'.Owned := by
  intro howned
  obtain ⟨l, hl⟩ := List.exists_mem_of_ne_nil _ hne
  exact hg l hl (howned l (hsub hl)).1

/-- A start that makes an object takes `g_pServer` away from the listeners there are. -/
theorem start_owned_iff (h : st.Consistent) (howned : st.Owned) (args : StartArgs) (memory : Memory) :
    (st.fileServerStart args memory).Owned ↔ SingleServer st (.start args memory) := by
  unfold SingleServer Servers.fileServerStart
  by_cases hargs : args.Accepted
  · rw [if_pos hargs]
    have hcreate : ∀ s listeners, st.listeners ⊆ listeners → listeners ⊆ st.listeners ++ [st.created] →
        (({ st.create s with listeners := listeners } : Servers).Owned ↔ st.listeners = []) := by
      intro s listeners hsub hsup
      constructor
      · intro howned'
        by_contra hne
        refine not_owned_of_gServer hne hsub (fun l hl hg => ?_) howned'
        exact Nat.ne_of_lt (h l hl).1 (Option.some.inj hg).symm
      · intro hnil l hl
        have hmem := hsup hl
        rw [hnil, List.nil_append, List.mem_singleton] at hmem
        subst hmem
        exact ⟨rfl, by simp [Servers.create]⟩
    cases memory with
    | noObject => simp [howned]
    | noConnection client =>
      refine (hcreate _ st.listeners (List.Subset.refl _) (List.subset_append_left _ _)).trans ?_
      simp [hargs]
    | noTcp =>
      refine (hcreate _ st.listeners (List.Subset.refl _) (List.subset_append_left _ _)).trans ?_
      simp [hargs]
    | enough registered =>
      refine (hcreate _ _ ?_ ?_).trans ?_
      · cases registered <;> simp
      · cases registered <;> simp
      · simp [hargs]
  · rw [if_neg hargs]
    simp [howned, hargs]

theorem fileServerStop_of_metatable {server : Nat} {s : ServerObject} (hs : st.object server = some s)
    (hmetatable : s.metatable = true) : st.fileServerStop server = st.stop server s := by
  rw [Servers.fileServerStop, hs]
  exact if_pos hmetatable

theorem fileServerStop_of_not {server : Nat} (hnot : ¬ ∃ s, st.object server = some s ∧ s.metatable = true) :
    st.fileServerStop server = st := by
  unfold Servers.fileServerStop
  split
  next s hs => exact if_neg fun hmetatable => hnot ⟨s, hs, hmetatable⟩
  next => rfl

/-- The end of a server changes no object but its own and no `reverse` pointer. -/
theorem stop_keeps (st : Servers) {server : Nat} {e : LifecycleEvent} (he : e = .stop server ∨ e = .collect server) :
    (∀ other ≠ server, (lifecycle.next st e).object other = st.object other) ∧
      (lifecycle.next st e).reverse = st.reverse ∧ (lifecycle.next st e).listeners = st.listeners := by
  have hstop : (∀ other ≠ server, (st.fileServerStop server).object other = st.object other) ∧
      (st.fileServerStop server).reverse = st.reverse ∧
      (st.fileServerStop server).listeners = st.listeners := by
    unfold Servers.fileServerStop
    split
    · split
      · exact ⟨fun other hother => Function.update_of_ne hother _ _, rfl, rfl⟩
      · exact ⟨fun _ _ => rfl, rfl, rfl⟩
    · exact ⟨fun _ _ => rfl, rfl, rfl⟩
  obtain ⟨hobject, hreverse, hlisteners⟩ := hstop
  rcases he with rfl | rfl
  · exact ⟨hobject, hreverse, hlisteners⟩
  · exact ⟨fun other hother => (Function.update_of_ne hother _ _).trans (hobject other hother), hreverse, hlisteners⟩

/-- The end of an object that was handed to Lua clears `g_pServer`, that of another changes nothing
a listener depends on. -/
theorem stop_iff {server : Nat} {e : LifecycleEvent} (he : e = .stop server ∨ e = .collect server)
    (h : st.Consistent) (howned : st.Owned) :
    ((lifecycle.next st e).Owned ∧ KeepsOthers st e) ↔ SingleServer st e := by
  obtain ⟨hobject, hreverse, hlisteners⟩ := stop_keeps st he
  have hkeeps : (∀ other, st.Serves other → (lifecycle.next st e).Serves other) → KeepsOthers st e := by
    intro hserves
    have hconnected : ∀ other ≠ server, ∀ client, st.Connected other client →
        (lifecycle.next st e).Connected other client := by
      intro other hother client hclient
      rw [Servers.Connected, hreverse, hobject other hother]
      exact hclient
    rcases he with rfl | rfl
    · exact fun other hother _ => ⟨hserves other, hconnected other hother⟩
    · exact fun other hother _ => ⟨hserves other, hconnected other hother⟩
  have hsingle : SingleServer st e ↔
      (st.listeners ≠ [] → ¬ ∃ s, st.object server = some s ∧ s.metatable = true) := by
    rcases he with rfl | rfl <;> rfl
  rw [hsingle]
  by_cases hlua : ∃ s, st.object server = some s ∧ s.metatable = true
  · obtain ⟨s, hs, hmetatable⟩ := hlua
    have hstop : (st.fileServerStop server).gServer = none := by
      rw [fileServerStop_of_metatable hs hmetatable]
      rfl
    have hg : (lifecycle.next st e).gServer = none := by
      rcases he with rfl | rfl <;> exact hstop
    constructor
    · rintro ⟨howned', -⟩ hne
      refine absurd howned' (not_owned_of_gServer hne (fun _ hl => hlisteners ▸ hl) fun l _ => ?_)
      rw [hg]
      exact Option.some_ne_none l |>.symm
    · intro hnone
      have hnil : st.listeners = [] := by
        by_contra hne
        exact hnone hne ⟨s, hs, hmetatable⟩
      refine ⟨fun l hl => ?_, hkeeps fun other hserves => ?_⟩
      · rw [hlisteners, hnil] at hl
        exact absurd hl List.not_mem_nil
      · rw [Servers.Serves, hnil] at hserves
        exact absurd hserves.1 List.not_mem_nil
  · have hstop : (st.fileServerStop server).gServer = st.gServer := by rw [fileServerStop_of_not hlua]
    have hg : (lifecycle.next st e).gServer = st.gServer := by
      rcases he with rfl | rfl <;> exact hstop
    refine iff_of_true ⟨fun l hl => ?_, hkeeps fun other hserves => ?_⟩ fun _ => hlua
    · rw [hlisteners] at hl
      obtain ⟨hpointer, hsome⟩ := howned l hl
      have hother : l ≠ server := by
        rintro rfl
        obtain ⟨s, hs⟩ := Option.isSome_iff_exists.mp hsome
        exact hlua ⟨s, hs, (h l hl).2 s hs⟩
      rw [hg, hobject l hother]
      exact ⟨hpointer, hsome⟩
    · rw [Servers.Serves, hlisteners, hg]
      exact hserves

/-- Clients come and go without a change to `g_pServer`, to the listeners or to what is allocated. -/
theorem owned_of_client {e : LifecycleEvent} (he : (∃ listener client, e = .connected listener client) ∨
    ∃ client, e = .disconnected client) (howned : st.Owned) : (lifecycle.next st e).Owned := by
  have hkept : (lifecycle.next st e).listeners = st.listeners ∧ (lifecycle.next st e).gServer = st.gServer ∧
      ∀ l, (st.object l).isSome → ((lifecycle.next st e).object l).isSome := by
    have hupdate : ∀ (g : Nat) (o : Option ServerObject), o.isSome = (st.object g).isSome → ∀ l,
        (st.object l).isSome → (Function.update st.object g o l).isSome := by
      intro g o ho l hl
      by_cases hg : l = g
      · subst hg
        rw [Function.update_self, ho]
        exact hl
      · rw [Function.update_of_ne hg]
        exact hl
    rcases he with ⟨listener, client, rfl⟩ | ⟨client, rfl⟩
    · simp only [Machine.next, lifecycle, Servers.fsClientConnected]
      split
      · split
        · exact ⟨rfl, rfl, fun _ hl => hl⟩
        · split
          · exact ⟨rfl, rfl, fun _ hl => hl⟩
          next s hs =>
            split
            · exact ⟨rfl, rfl, fun _ hl => hl⟩
            · exact ⟨rfl, rfl, hupdate _ _ (by rw [hs]; rfl)⟩
      · exact ⟨rfl, rfl, fun _ hl => hl⟩
    · simp only [Machine.next, lifecycle, Servers.fsClientDisconnected]
      split
      · exact ⟨rfl, rfl, fun _ hl => hl⟩
      · exact ⟨rfl, rfl, hupdate _ _ Option.isSome_map⟩
  obtain ⟨hlisteners, hg, hsome⟩ := hkept
  intro l hl
  rw [hlisteners] at hl
  rw [hg]
  exact ⟨(howned l hl).1, hsome l (howned l hl).2⟩

theorem lifecycle_iff (st : Servers) (e : LifecycleEvent) (h : st.Consistent) (howned : st.Owned) :
    ((lifecycle.next st e).Owned ∧ KeepsOthers st e) ↔ SingleServer st e := by
  cases e with
  | start args memory => exact (and_iff_left trivial).trans (start_owned_iff h howned args memory)
  | stop server => exact stop_iff (Or.inl rfl) h howned
  | collect server => exact stop_iff (Or.inr rfl) h howned
  | connected listener client =>
    exact iff_of_true ⟨owned_of_client (Or.inl ⟨listener, client, rfl⟩) howned, trivial⟩ fun _ => trivial
  | disconnected client =>
    exact iff_of_true ⟨owned_of_client (Or.inr ⟨client, rfl⟩) howned, trivial⟩ fun _ => trivial

/-! ### Runs -/

/-- For any starts, stops, collections, connects and disconnects: `g_pServer` is right for every
listener and no server loses anything by the end of another exactly when the first server with a
listener remains the only one. -/
theorem owned_iff_single (events : List LifecycleEvent) :
    (lifecycle.Always Servers.Owned .initial events ∧ lifecycle.Along KeepsOthers .initial events) ↔
      lifecycle.Along SingleServer .initial events :=
  Machine.always_and_along_iff lifecycle_consistent lifecycle_iff
    (fun _ hl => absurd hl List.not_mem_nil) (fun _ hl => absurd hl List.not_mem_nil) events

/-- A server that is started and stopped: a client can still connect, and `g_pServer` is null. -/
theorem stopped_server_listens :
    ¬ ∀ events : List LifecycleEvent,
      lifecycle.Always Servers.Owned .initial events ∧ lifecycle.Along KeepsOthers .initial events := by
  intro hall
  have hstopped := (hall [.start ⟨some 20123, 0, false⟩ (.enough true), .stop 0]).1.2.2 0 (by decide)
  exact absurd hstopped.1 (by decide)

end EspClock.FileServer
