import EspClock.Net.Sockets

/-!
# The table of accepted sockets

An entry of the table, the userdata that it refers to and the espconn of that userdata belong together. Lua calls leave
these links alone: a socket that is referenced again gets the registry slot that it had. The end of a connection takes its
entry out of the table as long as it is reported to the server's callback; `connect` on an accepted socket replaces the
callback.
-/

namespace EspClock.Net

open Function

variable {s s' : State}

/-! ### References -/

/-- Every variable that keeps a reference refers to its own value. -/
def Refs (s : State) : Prop := s.registry.Holds s.slot

theorem slot_setSlot (s : State) (v : Value) (r : Option Nat) : (s.setSlot v r).slot = update s.slot v r := by
  funext w
  cases v with
  | socket u =>
    cases w with
    | socket u' =>
      obtain rfl | hne := eq_or_ne u' u
      · simp [State.slot, State.setSlot, State.setUserdata]
      · simp [State.slot, State.setSlot, State.setUserdata, hne]
    | callback u' k =>
      obtain rfl | hne := eq_or_ne u' u
      · simp [State.slot, State.setSlot, State.setUserdata]
      · simp [State.slot, State.setSlot, State.setUserdata, hne]
    | serverConnect => rfl
    | other n => rfl
  | callback u k =>
    cases w with
    | socket u' =>
      obtain rfl | hne := eq_or_ne u' u
      · simp [State.slot, State.setSlot, State.setUserdata]
      · simp [State.slot, State.setSlot, State.setUserdata, hne]
    | callback u' k' =>
      obtain rfl | hne := eq_or_ne u' u
      · obtain rfl | hne := eq_or_ne k' k
        · simp [State.slot, State.setSlot, State.setUserdata]
        · simp [State.slot, State.setSlot, State.setUserdata, hne]
      · simp [State.slot, State.setSlot, State.setUserdata, hne]
    | serverConnect => rfl
    | other n => rfl
  | serverConnect => cases w <;> simp [State.slot, State.setSlot]
  | other n =>
    cases w with
    | other m =>
      obtain rfl | hne := eq_or_ne m n
      · simp [State.slot, State.setSlot]
      · simp [State.slot, State.setSlot, hne]
    | socket u => rfl
    | callback u k => rfl
    | serverConnect => rfl

@[simp] theorem registry_setSlot (s : State) (v : Value) (r : Option Nat) : (s.setSlot v r).registry = s.registry := by
  cases v <;> rfl

theorem setSlot_slot (s : State) (v : Value) : s.setSlot v (s.slot v) = s := by
  cases v <;> simp [State.setSlot, State.slot, State.setUserdata]

namespace Refs

theorem refer (h : Refs s) (v : Value) : Refs (s.refer v) := by
  have hreplace := RefTable.Holds.replace h v
  rw [← slot_setSlot] at hreplace
  exact hreplace

theorem release (h : Refs s) (v : Value) : Refs (s.release v) := by
  rw [State.release]
  split
  next => exact h
  next r hslot =>
    have hunref := RefTable.Holds.unref h hslot
    rw [← slot_setSlot] at hunref
    exact hunref

/-- A value that is referenced again keeps its slot. -/
theorem refer_same (h : Refs s) {v : Value} {r : Nat} (hslot : s.slot v = some r) : s.refer v = s := by
  have hreplace : s.registry.replace (s.slot v) v = (s.registry, r) := by
    rw [hslot]
    exact RefTable.replace_same (h.cells v r hslot)
  rw [State.refer, hreplace, ← hslot, setSlot_slot]

end Refs

/-! ### Links -/

/-- The entry `i` of the table, the registry slot `r`, the userdata `u` and the espconn `c` belong together. -/
structure Linked (s : State) (i : Fin maxSocket) (r u c : Nat) : Prop where
  entry : s.socket i = some r
  self : (s.userdata u).selfRef = some r
  conn : (s.userdata u).espConn = some c
  live : (s.espconn c).live = true
  back : (s.espconn c).reverse = some u
  disconcb : (s.espconn c).disconcb ≠ none
  reconcb : (s.espconn c).reconcb ≠ none

structure Links (s : State) : Prop where
  count : s.socketNum = Slots.occupied s.socket
  distinct : Slots.Distinct s.socket
  entry : ∀ i r, s.socket i = some r → ∃ u c, Linked s i r u c
  self : ∀ u r, (s.userdata u).selfRef = some r → ∃ i c, Linked s i r u c
  conn : ∀ u c, (s.userdata u).espConn = some c → ∃ i r, Linked s i r u c
  back : ∀ c u, (s.espconn c).reverse = some u → ∃ i r, Linked s i r u c
  freshUserdata : ∀ u, s.nextUserdata ≤ u → (s.userdata u).selfRef = none
  freshEspconn : ∀ c, s.nextEspconn ≤ c → (s.espconn c).reverse = none

/-- What the links are made of is the same in both states. -/
structure SameLinks (s s' : State) : Prop where
  socket : s'.socket = s.socket
  socketNum : s'.socketNum = s.socketNum
  selfRef : ∀ u, (s'.userdata u).selfRef = (s.userdata u).selfRef
  espConn : ∀ u, (s'.userdata u).espConn = (s.userdata u).espConn
  live : ∀ c, (s'.espconn c).live = (s.espconn c).live
  reverse : ∀ c, (s'.espconn c).reverse = (s.espconn c).reverse
  disconcb : ∀ c, (s.espconn c).disconcb ≠ none → (s'.espconn c).disconcb ≠ none
  reconcb : ∀ c, (s.espconn c).reconcb ≠ none → (s'.espconn c).reconcb ≠ none
  nextUserdata : s'.nextUserdata = s.nextUserdata
  nextEspconn : s'.nextEspconn = s.nextEspconn

namespace SameLinks

theorem refl (s : State) : SameLinks s s :=
  ⟨rfl, rfl, fun _ => rfl, fun _ => rfl, fun _ => rfl, fun _ => rfl, fun _ h => h, fun _ h => h, rfl, rfl⟩

theorem trans {s₁ s₂ s₃ : State} (h : SameLinks s₁ s₂) (h' : SameLinks s₂ s₃) : SameLinks s₁ s₃ where
  socket := h'.socket.trans h.socket
  socketNum := h'.socketNum.trans h.socketNum
  selfRef u := (h'.selfRef u).trans (h.selfRef u)
  espConn u := (h'.espConn u).trans (h.espConn u)
  live c := (h'.live c).trans (h.live c)
  reverse c := (h'.reverse c).trans (h.reverse c)
  disconcb c hc := h'.disconcb c (h.disconcb c hc)
  reconcb c hc := h'.reconcb c (h.reconcb c hc)
  nextUserdata := h'.nextUserdata.trans h.nextUserdata
  nextEspconn := h'.nextEspconn.trans h.nextEspconn

theorem linked (h : SameLinks s s') {i : Fin maxSocket} {r u c : Nat} (hl : Linked s i r u c) : Linked s' i r u c where
  entry := (congrFun h.socket i).trans hl.entry
  self := (h.selfRef u).trans hl.self
  conn := (h.espConn u).trans hl.conn
  live := (h.live c).trans hl.live
  back := (h.reverse c).trans hl.back
  disconcb := h.disconcb c hl.disconcb
  reconcb := h.reconcb c hl.reconcb

theorem links (h : SameLinks s s') (hs : Links s) : Links s' where
  count := by rw [h.socketNum, h.socket, hs.count]
  distinct := h.socket ▸ hs.distinct
  entry i r hi := by
    obtain ⟨u, c, hl⟩ := hs.entry i r ((congrFun h.socket i).symm.trans hi)
    exact ⟨u, c, h.linked hl⟩
  self u r hu := by
    obtain ⟨i, c, hl⟩ := hs.self u r ((h.selfRef u).symm.trans hu)
    exact ⟨i, c, h.linked hl⟩
  conn u c hu := by
    obtain ⟨i, r, hl⟩ := hs.conn u c ((h.espConn u).symm.trans hu)
    exact ⟨i, r, h.linked hl⟩
  back c u hc := by
    obtain ⟨i, r, hl⟩ := hs.back c u ((h.reverse c).symm.trans hc)
    exact ⟨i, r, h.linked hl⟩
  freshUserdata u hu := (h.selfRef u).trans (hs.freshUserdata u (h.nextUserdata ▸ hu))
  freshEspconn c hc := (h.reverse c).trans (hs.freshEspconn c (h.nextEspconn ▸ hc))

theorem setSlot (s : State) {v : Value} (hv : ∀ u, v ≠ .socket u) (r : Option Nat) : SameLinks s (s.setSlot v r) := by
  cases v with
  | socket u => exact absurd rfl (hv u)
  | callback u k =>
    refine { refl s with selfRef := fun u' => ?_, espConn := fun u' => ?_ }
    all_goals
      obtain rfl | hne := eq_or_ne u' u
      · simp [State.setSlot, State.setUserdata]
      · simp [State.setSlot, State.setUserdata, hne]
  | serverConnect => exact { refl s with }
  | other n => exact { refl s with }

theorem refer (s : State) {v : Value} (hv : ∀ u, v ≠ .socket u) : SameLinks s (s.refer v) :=
  { setSlot s hv _ with }

theorem release (s : State) {v : Value} (hv : ∀ u, v ≠ .socket u) : SameLinks s (s.release v) := by
  rw [State.release]
  split
  next => exact refl s
  next => exact { setSlot s hv none with }

theorem setEspconn (s : State) (c : Nat) {f : Espconn → Espconn} (hlive : (f (s.espconn c)).live = (s.espconn c).live)
    (hreverse : (f (s.espconn c)).reverse = (s.espconn c).reverse)
    (hdisconcb : (s.espconn c).disconcb ≠ none → (f (s.espconn c)).disconcb ≠ none)
    (hreconcb : (s.espconn c).reconcb ≠ none → (f (s.espconn c)).reconcb ≠ none) :
    SameLinks s (s.setEspconn c f) := by
  refine { refl s with
    live := fun d => ?_, reverse := fun d => ?_, disconcb := fun d => ?_, reconcb := fun d => ?_ }
  all_goals
    obtain rfl | hne := eq_or_ne d c
    · simpa [State.setEspconn]
    · simp [State.setEspconn, hne]

end SameLinks

/-! ### Lua calls -/

/-- The links are those of the state before, and every reference is in order. -/
def Keeps (s s' : State) : Prop := SameLinks s s' ∧ Refs s'

namespace Keeps

theorem rfl' (hrefs : Refs s) : Keeps s s := ⟨.refl s, hrefs⟩

theorem trans {s₁ s₂ s₃ : State} (h : Keeps s₁ s₂) (h' : Keeps s₂ s₃) : Keeps s₁ s₃ := ⟨h.1.trans h'.1, h'.2⟩

theorem refer (hrefs : Refs s) {v : Value} (hv : ∀ u, v ≠ .socket u) : Keeps s (s.refer v) :=
  ⟨.refer s hv, hrefs.refer v⟩

theorem release (hrefs : Refs s) {v : Value} (hv : ∀ u, v ≠ .socket u) : Keeps s (s.release v) :=
  ⟨.release s hv, hrefs.release v⟩

theorem ite_refer (hrefs : Refs s) {v : Value} (hv : ∀ u, v ≠ .socket u) (b : Bool) :
    Keeps s (if b then s.refer v else s) := by
  cases b with
  | false => exact rfl' hrefs
  | true => exact refer hrefs hv

theorem releases (hrefs : Refs s) (u : Nat) (ks : List Callback) :
    Keeps s (ks.foldl (fun s k => s.release (.callback u k)) s) := by
  induction ks generalizing s with
  | nil => exact rfl' hrefs
  | cons k ks ih =>
    have hrelease : Keeps s (s.release (.callback u k)) := release hrefs fun _ h => by cases h
    exact hrelease.trans (ih hrelease.2)

end Keeps

theorem netDns_keeps (hrefs : Refs s) (hlinks : Links s) (u : Nat) (domain : Option (List UInt8)) (callback : Bool) :
    Keeps s (netDns s u domain callback).1 := by
  rw [netDns]
  split
  next => exact .rfl' hrefs
  next c hconn =>
    obtain ⟨i, r, hl⟩ := hlinks.conn u c hconn
    have hsame : s.refer (.socket u) = s := hrefs.refer_same hl.self
    dsimp only
    rw [hsame]
    split
    next => exact .rfl' hrefs
    next name =>
      split_ifs
      · exact .rfl' hrefs
      · exact .refer hrefs fun _ h => by cases h
      · exact .rfl' hrefs

theorem netSocketConnect_keeps (hrefs : Refs s) (hlinks : Links s) (u port localPort : Nat) (address callback : Bool) :
    Keeps s (netSocketConnect s u port localPort address callback).1 := by
  rw [netSocketConnect]
  split
  next => exact .rfl' hrefs
  next c hconn =>
    obtain ⟨i, r, hl⟩ := hlinks.conn u c hconn
    have hports : Keeps s (s.setEspconn c fun p => { p with remotePort := port, localPort := localPort }) :=
      ⟨.setEspconn s c rfl rfl (fun h => h) (fun h => h), hrefs⟩
    have hcallback := hports.trans (.ite_refer hports.2 (v := .callback u .connect) (fun _ h => by cases h) callback)
    dsimp only
    generalize (if callback then _ else _ : State) = t at hcallback ⊢
    have hsame : t.refer (.socket u) = t := hcallback.2.refer_same ((hcallback.1.selfRef u).trans hl.self)
    rw [hsame]
    refine hcallback.trans ⟨.setEspconn t c rfl rfl (fun h => h) (fun _ => Option.some_ne_none _), hcallback.2⟩

theorem netDelete_keeps (hrefs : Refs s) (hlinks : Links s) {u : Nat} (hself : (s.userdata u).selfRef = none) :
    Keeps s (netDelete s u) := by
  have hconn : (s.userdata u).espConn = none := by
    cases hconn : (s.userdata u).espConn with
    | none => rfl
    | some c =>
      obtain ⟨i, r, hl⟩ := hlinks.conn u c hconn
      cases hl.self.symm.trans hself
  have hkeeps := Keeps.releases hrefs u callbacks
  have hself' := (hkeeps.1.selfRef u).trans hself
  have hslot : (callbacks.foldl (fun s k => s.release (.callback u k)) s).slot (.socket u) = none := hself'
  rw [netDelete, hconn]
  dsimp only
  rw [State.release, hslot]
  exact hkeeps

theorem runCall_keeps (hrefs : Refs s) (hlinks : Links s) (call : Call) : Keeps s (runCall s call).1 := by
  cases call with
  | dns u domain callback => exact netDns_keeps hrefs hlinks u domain callback
  | connect u port localPort address callback =>
    exact netSocketConnect_keeps hrefs hlinks u port localPort address callback
  | close u =>
    rw [runCall, netSocketClose]
    split <;> exact .rfl' hrefs
  | socketOn u k =>
    rw [runCall, netSocketOn]
    split
    · exact .rfl' hrefs
    · exact .refer hrefs fun _ h => by cases h
  | listen callback => exact .ite_refer hrefs (v := .serverConnect) (fun _ h => by cases h) callback
  | closeServer => exact .release hrefs fun _ h => by cases h
  | ref n => exact .refer hrefs fun _ h => by cases h
  | unref n => exact .release hrefs fun _ h => by cases h
  | collect u =>
    rw [runCall]
    split_ifs with hself
    · exact netDelete_keeps hrefs hlinks hself
    · exact .rfl' hrefs

/-- Whatever a script does, the links stay. -/
theorem lua_keeps (hrefs : Refs s) (hlinks : Links s) (calls : List Call) : Keeps s (lua.final s calls) := by
  have hstep : ∀ t call, Keeps s t → Keeps s (lua.next t call) := fun t call ht =>
    ht.trans (runCall_keeps ht.2 (ht.1.links hlinks) call)
  exact (Machine.always_of_forall_step hstep (.rfl' hrefs) calls).last

theorem callDisconnect_keeps (hrefs : Refs s) (hlinks : Links s) (u : Nat) (calls : List Call) :
    Keeps s (callDisconnect s u calls).1 := by
  rw [callDisconnect]
  split
  · exact lua_keeps hrefs hlinks calls
  · exact .rfl' hrefs

/-! ### Connections -/

/-- Any part of a link determines the others. -/
theorem Linked.inj (hrefs : Refs s) (hlinks : Links s) {i j : Fin maxSocket} {r q u v c d : Nat} (h : Linked s i r u c)
    (h' : Linked s j q v d) (hsome : i = j ∨ u = v ∨ c = d) : i = j ∧ u = v ∧ c = d := by
  have huser : u = v := by
    obtain rfl | huser | rfl := hsome
    · have hr : r = q := Option.some.inj (h.entry.symm.trans h'.entry)
      have hvalue : Value.socket u = .socket v := RefTable.Holds.inj hrefs h.self (hr ▸ h'.self)
      exact Value.socket.inj hvalue
    · exact huser
    · exact Option.some.inj (h.back.symm.trans h'.back)
  subst huser
  have hr : r = q := Option.some.inj (h.self.symm.trans h'.self)
  exact ⟨hlinks.distinct i j r h.entry (hr ▸ h'.entry), rfl, Option.some.inj (h.conn.symm.trans h'.conn)⟩

/-- An espconn without userdata can become any other one. -/
theorem Links.update_espconn (hlinks : Links s) {c n : Nat} (hc : (s.espconn c).reverse = none) {p : Espconn}
    (hp : p.reverse = none) (hn : s.nextEspconn ≤ n) :
    Links { s with espconn := update s.espconn c p, nextEspconn := n } := by
  have hlinked : ∀ {i r u d}, Linked s i r u d → Linked { s with espconn := update s.espconn c p, nextEspconn := n } i r u d := by
    intro i r u d hl
    have hne : d ≠ c := by
      rintro rfl
      cases hc.symm.trans hl.back
    have hd : update s.espconn c p d = s.espconn d := update_of_ne hne ..
    exact { hl with
      live := (congrArg Espconn.live hd).trans hl.live
      back := (congrArg Espconn.reverse hd).trans hl.back
      disconcb := (congrArg Espconn.disconcb hd).trans_ne hl.disconcb
      reconcb := (congrArg Espconn.reconcb hd).trans_ne hl.reconcb }
  have hreverse : ∀ d, (update s.espconn c p d).reverse = (s.espconn d).reverse := by
    intro d
    obtain rfl | hne := eq_or_ne d c
    · rw [update_self, hp, hc]
    · rw [update_of_ne hne]
  refine ⟨hlinks.count, hlinks.distinct, fun i r hi => ?_, fun u r hu => ?_, fun u d hu => ?_, fun d u hd => ?_,
    hlinks.freshUserdata, fun d hd => (hreverse d).trans (hlinks.freshEspconn d (hn.trans hd))⟩
  · obtain ⟨u, d, hl⟩ := hlinks.entry i r hi
    exact ⟨u, d, hlinked hl⟩
  · obtain ⟨i, d, hl⟩ := hlinks.self u r hu
    exact ⟨i, d, hlinked hl⟩
  · obtain ⟨i, r, hl⟩ := hlinks.conn u d hu
    exact ⟨i, r, hlinked hl⟩
  · obtain ⟨i, r, hl⟩ := hlinks.back d u ((hreverse d).symm.trans hd)
    exact ⟨i, r, hlinked hl⟩

/-- The state in which `c` got the entry `i` and the next userdata. -/
def State.link (s : State) (i : Fin maxSocket) (c : Nat) : State :=
  let p := s.registry.ref (.socket s.nextUserdata)
  { s with
    registry := p.1
    userdata := update s.userdata s.nextUserdata ⟨some c, some p.2, fun _ => none⟩
    nextUserdata := s.nextUserdata + 1
    socket := update s.socket i (some p.2)
    socketNum := s.socketNum + 1
    espconn := update s.espconn c
      { s.espconn c with reverse := some s.nextUserdata, disconcb := some .server, reconcb := some .server } }

theorem Refs.link (hrefs : Refs s) (i : Fin maxSocket) (c : Nat) : Refs (s.link i c) := by
  refine (RefTable.Holds.ref hrefs (.socket s.nextUserdata)).mono fun v q hv => ?_
  cases v with
  | socket u =>
    obtain rfl | hne := eq_or_ne u s.nextUserdata
    · simpa [State.slot, State.link] using hv
    · simpa [State.slot, State.link, hne] using hv
  | callback u k =>
    obtain rfl | hne := eq_or_ne u s.nextUserdata
    · simp [State.slot, State.link] at hv
    · simpa [State.slot, State.link, hne] using hv
  | serverConnect => exact hv
  | other n => exact hv

theorem Links.link (hrefs : Refs s) (hlinks : Links s) {i : Fin maxSocket} (hi : s.socket i = none) {c : Nat}
    (hc : (s.espconn c).reverse = none) (hlive : (s.espconn c).live = true) (hlt : c < s.nextEspconn) :
    Links (s.link i c) := by
  have hself : (s.userdata s.nextUserdata).selfRef = none := hlinks.freshUserdata _ le_rfl
  have hold : ∀ {j q v d}, Linked s j q v d → Linked (s.link i c) j q v d := by
    intro j q v d hl
    have hj : j ≠ i := by
      rintro rfl
      cases hi.symm.trans hl.entry
    have hv : v ≠ s.nextUserdata := by
      rintro rfl
      cases hself.symm.trans hl.self
    have hd : d ≠ c := by
      rintro rfl
      cases hc.symm.trans hl.back
    constructor <;> simp [State.link, hj, hv, hd, hl.entry, hl.self, hl.conn, hl.live, hl.back, hl.disconcb, hl.reconcb]
  have hnew : Linked (s.link i c) i (s.registry.ref (.socket s.nextUserdata)).2 s.nextUserdata c := by
    constructor <;> simp [State.link, hlive]
  refine ⟨?_, ?_, fun j q hj => ?_, fun v q hv => ?_, fun v d hv => ?_, fun d v hd => ?_, fun v hv => ?_, fun d hd => ?_⟩
  · have hoccupied := Slots.occupied_update_some hi (s.registry.ref (.socket s.nextUserdata)).2
    rw [State.link, hoccupied, hlinks.count, Int.natCast_succ]
  · refine hlinks.distinct.update_some i fun j hj => ?_
    obtain ⟨u, d, hl⟩ := hlinks.entry j _ hj
    cases (hrefs.valid.ref_fresh _).symm.trans (hrefs.cells (.socket u) _ hl.self)
  · obtain rfl | hne := eq_or_ne j i
    · obtain rfl := Option.some.inj (hnew.entry.symm.trans hj)
      exact ⟨_, c, hnew⟩
    · obtain ⟨u, d, hl⟩ := hlinks.entry j q ((update_of_ne hne ..).symm.trans hj)
      exact ⟨u, d, hold hl⟩
  · obtain rfl | hne := eq_or_ne v s.nextUserdata
    · obtain rfl := Option.some.inj (hnew.self.symm.trans hv)
      exact ⟨i, c, hnew⟩
    · obtain ⟨j, d, hl⟩ := hlinks.self v q (by simpa [State.link, hne] using hv)
      exact ⟨j, d, hold hl⟩
  · obtain rfl | hne := eq_or_ne v s.nextUserdata
    · obtain rfl : c = d := Option.some.inj (hnew.conn.symm.trans hv)
      exact ⟨i, _, hnew⟩
    · obtain ⟨j, q, hl⟩ := hlinks.conn v d (by simpa [State.link, hne] using hv)
      exact ⟨j, q, hold hl⟩
  · obtain rfl | hne := eq_or_ne d c
    · obtain rfl : s.nextUserdata = v := Option.some.inj (hnew.back.symm.trans hd)
      exact ⟨i, _, hnew⟩
    · obtain ⟨j, q, hl⟩ := hlinks.back d v (by simpa [State.link, hne] using hd)
      exact ⟨j, q, hold hl⟩
  · have hlt : s.nextUserdata < v := hv
    rw [State.link]
    exact (congrArg Userdata.selfRef (update_of_ne hlt.ne' ..)).trans (hlinks.freshUserdata v hlt.le)
  · have hge : s.nextEspconn ≤ d := hd
    exact (congrArg Espconn.reverse (update_of_ne (hlt.trans_le hge).ne' ..)).trans (hlinks.freshEspconn d hge)

theorem netServerConnected_links (hrefs : Refs s) (hlinks : Links s) {c : Nat} (hc : (s.espconn c).reverse = none)
    (hlive : (s.espconn c).live = true) (hlt : c < s.nextEspconn) :
    Refs (netServerConnected s c).1 ∧ Links (netServerConnected s c).1 := by
  rw [netServerConnected]
  split
  next => exact ⟨hrefs, hlinks.update_espconn hc rfl le_rfl⟩
  next i hfind =>
    have hi : s.socket i = none := Option.isNone_iff_eq_none.mp (Fin.find?_eq_some_iff.mp hfind).1
    split
    next => exact ⟨hrefs, hlinks⟩
    next => exact ⟨hrefs.link i c, hlinks.link hrefs hi hc hlive hlt⟩

/-- The state in which the entry `i`, the userdata `u` and the espconn `c` no longer belong together. -/
def State.unlink (s : State) (i : Fin maxSocket) (r u c : Nat) : State :=
  { s with
    registry := s.registry.unref r
    userdata := update s.userdata u { s.userdata u with espConn := none, selfRef := none }
    socket := update s.socket i none
    socketNum := s.socketNum - 1
    espconn := update s.espconn c { s.espconn c with reverse := none } }

theorem forgetSocket_eq (hlinks : Links s) {i : Fin maxSocket} {r u c : Nat} (hl : Linked s i r u c) :
    forgetSocket s u = s.unlink i r u c := by
  have hfind : (Fin.find? fun j => (s.socket j).isSome && s.socket j == (s.userdata u).selfRef) = some i := by
    rw [Fin.find?_eq_some_iff]
    refine ⟨by simp [hl.entry, hl.self], fun j hj => ?_⟩
    by_contra hfound
    rw [Bool.not_eq_false, Bool.and_eq_true, beq_iff_eq] at hfound
    exact hj.ne (hlinks.distinct j i r (hfound.2.trans hl.self) hl.entry)
  have hslot : ((s.setEspconn c fun p => { p with reverse := none }).setUserdata u fun d =>
      { d with espConn := none }).slot (.socket u) = some r := by
    simpa [State.slot, State.setUserdata, State.setEspconn] using hl.self
  simp only [forgetSocket, hfind, hl.conn, State.release, hslot]
  simp [State.unlink, State.setSlot, State.setUserdata, State.setEspconn]

theorem Refs.unlink (hrefs : Refs s) {i : Fin maxSocket} {r u c : Nat} (hl : Linked s i r u c) :
    Refs (s.unlink i r u c) := by
  refine (RefTable.Holds.unref hrefs (x := .socket u) hl.self).mono fun v q hv => ?_
  cases v with
  | socket w =>
    obtain rfl | hne := eq_or_ne w u
    · simp [State.slot, State.unlink] at hv
    · simpa [State.slot, State.unlink, hne] using hv
  | callback w k =>
    obtain rfl | hne := eq_or_ne w u
    · simpa [State.slot, State.unlink] using hv
    · simpa [State.slot, State.unlink, hne] using hv
  | serverConnect => exact hv
  | other n => exact hv

theorem Links.unlink (hrefs : Refs s) (hlinks : Links s) {i : Fin maxSocket} {r u c : Nat} (hl : Linked s i r u c) :
    Links (s.unlink i r u c) := by
  have hold : ∀ {j q v d}, Linked s j q v d → j ≠ i → Linked (s.unlink i r u c) j q v d := by
    intro j q v d hl' hj
    have hv : v ≠ u := fun h => hj (hl'.inj hrefs hlinks hl (.inr (.inl h))).1
    have hd : d ≠ c := fun h => hj (hl'.inj hrefs hlinks hl (.inr (.inr h))).1
    constructor <;>
      simp [State.unlink, hj, hv, hd, hl'.entry, hl'.self, hl'.conn, hl'.live, hl'.back, hl'.disconcb, hl'.reconcb]
  refine ⟨?_, hlinks.distinct.update_none i, fun j q hj => ?_, fun v q hv => ?_, fun v d hv => ?_, fun d v hd => ?_,
    fun v hv => ?_, fun d hd => ?_⟩
  · have hoccupied := Slots.occupied_update_none hl.entry
    have hcount := hlinks.count
    simp only [State.unlink]
    omega
  · obtain rfl | hne := eq_or_ne j i
    · simp [State.unlink] at hj
    · obtain ⟨v, d, hl'⟩ := hlinks.entry j q ((update_of_ne hne ..).symm.trans hj)
      exact ⟨v, d, hold hl' hne⟩
  · obtain rfl | hne := eq_or_ne v u
    · simp [State.unlink] at hv
    · obtain ⟨j, d, hl'⟩ := hlinks.self v q (by simpa [State.unlink, hne] using hv)
      exact ⟨j, d, hold hl' fun h => hne (hl'.inj hrefs hlinks hl (.inl h)).2.1⟩
  · obtain rfl | hne := eq_or_ne v u
    · simp [State.unlink] at hv
    · obtain ⟨j, q, hl'⟩ := hlinks.conn v d (by simpa [State.unlink, hne] using hv)
      exact ⟨j, q, hold hl' fun h => hne (hl'.inj hrefs hlinks hl (.inl h)).2.1⟩
  · obtain rfl | hne := eq_or_ne d c
    · simp [State.unlink] at hd
    · obtain ⟨j, q, hl'⟩ := hlinks.back d v (by simpa [State.unlink, hne] using hd)
      exact ⟨j, q, hold hl' fun h => hne (hl'.inj hrefs hlinks hl (.inl h)).2.2⟩
  · obtain rfl | hne := eq_or_ne v u
    · simp [State.unlink]
    · exact (congrArg Userdata.selfRef (update_of_ne hne ..)).trans (hlinks.freshUserdata v hv)
  · obtain rfl | hne := eq_or_ne d c
    · simp [State.unlink]
    · exact (congrArg Espconn.reverse (update_of_ne hne ..)).trans (hlinks.freshEspconn d hd)

/-! ### The end of a connection -/

/-- The entry `i` is that of the connection `c`. -/
def EntryOf (s : State) (c : Nat) (i : Fin maxSocket) : Prop :=
  ∃ r u, s.socket i = some r ∧ s.registry.cells r = some (.socket u) ∧ (s.userdata u).espConn = some c

/-- The SDK reports the end of the connection `c`, of an accepted socket, to the callback for client sockets. -/
def TakenOver (s : State) (handler : Option Handler) (c : Nat) : Prop :=
  (s.espconn c).live = true ∧ (s.espconn c).reverse ≠ none ∧ handler = some .socket

theorem Linked.entryOf (hrefs : Refs s) {i : Fin maxSocket} {r u c : Nat} (hl : Linked s i r u c) : EntryOf s c i :=
  ⟨r, u, hl.entry, hrefs.cells (.socket u) r hl.self, hl.conn⟩

theorem EntryOf.linked (hrefs : Refs s) (hlinks : Links s) {c : Nat} {i : Fin maxSocket} (h : EntryOf s c i) :
    ∃ r u, Linked s i r u c := by
  obtain ⟨r, u, hi, hcell, hconn⟩ := h
  obtain ⟨v, d, hl⟩ := hlinks.entry i r hi
  obtain rfl : v = u := Value.socket.inj (Option.some.inj ((hrefs.cells (.socket v) r hl.self).symm.trans hcell))
  obtain rfl : d = c := Option.some.inj (hl.conn.symm.trans hconn)
  exact ⟨r, v, hl⟩

theorem disconnect_of_reverse_none {c : Nat} (hc : (s.espconn c).reverse = none) (handler : Option Handler)
    (calls : List Call) : disconnect s handler c calls = (s, []) := by
  cases handler with
  | none => rfl
  | some handler => cases handler <;> simp [disconnect, netServerDisconnected, netSocketDisconnected, hc]

/-- The server's callback takes the entry of the connection out of the table. -/
theorem netServerDisconnected_links (hrefs : Refs s) (hlinks : Links s) {i : Fin maxSocket} {r u c : Nat}
    (hl : Linked s i r u c) (calls : List Call) :
    let t := (netServerDisconnected s c calls).1
    Refs t ∧ Links t ∧ (t.espconn c).reverse = none ∧ t.socket i = none := by
  have hkeeps := callDisconnect_keeps hrefs hlinks u calls
  have hlinks' := hkeeps.1.links hlinks
  have hl' := hkeeps.1.linked hl
  have hforget : (netServerDisconnected s c calls).1 = (callDisconnect s u calls).1.unlink i r u c := by
    rw [netServerDisconnected, hl.back]
    exact forgetSocket_eq hlinks' hl'
  rw [hforget]
  exact ⟨hkeeps.2.unlink hl', hlinks'.unlink hkeeps.2 hl', by simp [State.unlink], by simp [State.unlink]⟩

theorem endConnection_links (hrefs : Refs s) (hlinks : Links s) {handler : Option Handler} {c : Nat}
    (hhandler : ∀ i r u, Linked s i r u c → handler ≠ none) (hok : ¬TakenOver s handler c) (calls : List Call) :
    let t := (endConnection s handler c calls).1
    Refs t ∧ Links t ∧ ∀ i, EntryOf s c i → t.socket i = none := by
  rw [endConnection]
  split_ifs with hlive
  · cases hback : (s.espconn c).reverse with
    | none =>
      rw [disconnect_of_reverse_none hback]
      refine ⟨hrefs, hlinks.update_espconn hback hback le_rfl, fun i hi => ?_⟩
      obtain ⟨r, u, hl⟩ := hi.linked hrefs hlinks
      cases hback.symm.trans hl.back
    | some u =>
      obtain ⟨i, r, hl⟩ := hlinks.back c u hback
      have hserver : handler = some .server := by
        rcases handler with _ | _ | _
        · exact absurd rfl (hhandler i r u hl)
        · rfl
        · exact absurd ⟨hlive, hback ▸ Option.some_ne_none u, rfl⟩ hok
      subst hserver
      obtain ⟨hrefs', hlinks', hback', hentry⟩ := netServerDisconnected_links hrefs hlinks hl calls
      refine ⟨hrefs', hlinks'.update_espconn hback' hback' le_rfl, fun j hj => ?_⟩
      obtain ⟨q, v, hl'⟩ := hj.linked hrefs hlinks
      rw [(hl'.inj hrefs hlinks hl (.inr (.inr rfl))).1]
      exact hentry
  · refine ⟨hrefs, hlinks, fun i hi => ?_⟩
    obtain ⟨r, u, hl⟩ := hi.linked hrefs hlinks
    exact absurd hl.live hlive

theorem socket_release (s : State) (v : Value) : (s.release v).socket = s.socket := by
  rw [State.release]
  split
  · rfl
  · cases v <;> rfl

/-- The callback for client sockets does not look at the table. -/
theorem netSocketDisconnected_socket (hrefs : Refs s) (hlinks : Links s) (c : Nat) (calls : List Call) :
    (netSocketDisconnected s c calls).1.socket = s.socket := by
  rw [netSocketDisconnected]
  split
  next => rfl
  next u hback =>
    have hkeeps := callDisconnect_keeps hrefs hlinks u calls
    dsimp only
    rw [socket_release]
    split
    · exact hkeeps.1.socket
    · exact hkeeps.1.socket

theorem endConnection_of_takenOver (hrefs : Refs s) (hlinks : Links s) {handler : Option Handler} {c : Nat}
    (h : TakenOver s handler c) (calls : List Call) :
    ∃ i, EntryOf s c i ∧ (endConnection s handler c calls).1.socket i ≠ none := by
  obtain ⟨hlive, hback, rfl⟩ := h
  obtain ⟨u, hu⟩ := Option.ne_none_iff_exists'.mp hback
  obtain ⟨i, r, hl⟩ := hlinks.back c u hu
  refine ⟨i, hl.entryOf hrefs, ?_⟩
  rw [endConnection, if_pos hlive]
  have hsocket : (netSocketDisconnected s c calls).1.socket i = some r :=
    (congrFun (netSocketDisconnected_socket hrefs hlinks c calls) i).trans hl.entry
  exact hsocket.trans_ne (Option.some_ne_none r)

/-! ### Runs -/

/-- The entries are counted, differ, and each is the reference of a userdata with a live connection that points back. -/
structure TableInvariant (s : State) : Prop where
  count : s.socketNum = Slots.occupied s.socket
  distinct : Slots.Distinct s.socket
  entry : ∀ i r, s.socket i = some r → ∃ u c, s.registry.cells r = some (.socket u) ∧
    (s.userdata u).selfRef = some r ∧ (s.userdata u).espConn = some c ∧ (s.espconn c).live = true ∧
      (s.espconn c).reverse = some u

/-- The event is the disconnect or the reconnect event of a connection. -/
def Event.Ends (c : Nat) : Event → Prop
  | .disconnected d _ => d = c
  | .reconnected d _ => d = c
  | _ => False

/-- After the disconnect or reconnect event of a connection its entry is free. -/
def FreesEntry (s : State) (e : Event) : Prop := ∀ c, e.Ends c → ∀ i, EntryOf s c i → (net.next s e).socket i = none

/-- The end of an accepted connection is not reported to the callback for client sockets. -/
def ReachesServer (s : State) : Event → Prop
  | .disconnected c _ => ¬TakenOver s (s.espconn c).disconcb c
  | .reconnected c _ => ¬TakenOver s (s.espconn c).reconcb c
  | _ => True

/-- What every step that reaches the server keeps. -/
structure Ordered (s : State) : Prop where
  refs : Refs s
  links : Links s

theorem Ordered.tableInvariant (h : Ordered s) : TableInvariant s where
  count := h.links.count
  distinct := h.links.distinct
  entry i r hi := by
    obtain ⟨u, c, hl⟩ := h.links.entry i r hi
    exact ⟨u, c, h.refs.cells (.socket u) r hl.self, hl.self, hl.conn, hl.live, hl.back⟩

theorem ordered_initial : Ordered initial where
  refs := RefTable.holds_empty.mono fun v _ hv => by cases v <;> cases hv
  links := by
    have hempty : ∀ {α : Type} {x : α}, none ≠ some x := nofun
    exact ⟨by decide, fun _ _ _ hi => (hempty hi).elim, fun _ _ hi => (hempty hi).elim, fun _ _ hu => (hempty hu).elim,
      fun _ _ hu => (hempty hu).elim, fun _ _ hc => (hempty hc).elim, fun _ _ => rfl, fun _ _ => rfl⟩

theorem Ordered.keeps (h : Ordered s) (hkeeps : Keeps s s') : Ordered s' := ⟨hkeeps.2, hkeeps.1.links h.links⟩

theorem netSocketConnected_keeps (hrefs : Refs s) (c : Nat) : Keeps s (netSocketConnected s c).1 := by
  rw [netSocketConnected]
  split
  next => exact .rfl' hrefs
  next =>
    refine ⟨?_, hrefs⟩
    exact SameLinks.setEspconn s c (f := fun p => { p with disconcb := some .socket }) rfl rfl
      (fun _ => Option.some_ne_none _) fun h => h

theorem step_ordered (h : Ordered s) {e : Event} (hok : ReachesServer s e) : Ordered (net.next s e) := by
  cases e with
  | connected remotePort localPort =>
    have hnew : (s.espconn s.nextEspconn).reverse = none := h.links.freshEspconn _ le_rfl
    have hlinks := h.links.update_espconn hnew (p := accepted remotePort localPort) rfl (Nat.le_succ _)
    have hrefs : Refs { s with espconn := update s.espconn s.nextEspconn (accepted remotePort localPort),
                               nextEspconn := s.nextEspconn + 1 } := h.refs
    have hself : update s.espconn s.nextEspconn (accepted remotePort localPort) s.nextEspconn = accepted remotePort localPort :=
      update_self ..
    obtain ⟨hrefs', hlinks'⟩ := netServerConnected_links hrefs hlinks (c := s.nextEspconn)
      (congrArg Espconn.reverse hself) ((congrArg Espconn.live hself).trans rfl) (Nat.lt_succ_self _)
    exact ⟨hrefs', hlinks'⟩
  | socketConnected c =>
    change Ordered (if _ then _ else _ : State × List Action).1
    split_ifs
    · exact h.keeps (netSocketConnected_keeps h.refs c)
    · exact h
  | disconnected c calls =>
    obtain ⟨hrefs, hlinks, -⟩ := endConnection_links h.refs h.links (fun _ _ _ hl => hl.disconcb) hok calls
    exact ⟨hrefs, hlinks⟩
  | reconnected c calls =>
    obtain ⟨hrefs, hlinks, -⟩ := endConnection_links h.refs h.links (fun _ _ _ hl => hl.reconcb) hok calls
    exact ⟨hrefs, hlinks⟩
  | call call => exact h.keeps (runCall_keeps h.refs h.links call)

/-- The end of a connection frees its entries unless it is taken over. -/
theorem endConnection_frees_iff (h : Ordered s) {handler : Option Handler} {c : Nat}
    (hhandler : ∀ i r u, Linked s i r u c → handler ≠ none) (calls : List Call) :
    (∀ i, EntryOf s c i → (endConnection s handler c calls).1.socket i = none) ↔ ¬TakenOver s handler c := by
  constructor
  · intro hfrees htaken
    obtain ⟨i, hi, hne⟩ := endConnection_of_takenOver h.refs h.links htaken calls
    exact hne (hfrees i hi)
  · intro hok
    exact (endConnection_links h.refs h.links hhandler hok calls).2.2

theorem freesEntry_iff (h : Ordered s) (e : Event) : FreesEntry s e ↔ ReachesServer s e := by
  cases e with
  | connected remotePort localPort => exact iff_of_true (fun c hc => hc.elim) trivial
  | socketConnected c => exact iff_of_true (fun c hc => hc.elim) trivial
  | call call => exact iff_of_true (fun c hc => hc.elim) trivial
  | disconnected c calls =>
    refine Iff.trans ?_ (endConnection_frees_iff h (fun _ _ _ hl => hl.disconcb) calls)
    exact ⟨fun hfrees => hfrees c rfl, fun hfrees d hd => hd ▸ hfrees⟩
  | reconnected c calls =>
    refine Iff.trans ?_ (endConnection_frees_iff h (fun _ _ _ hl => hl.reconcb) calls)
    exact ⟨fun hfrees => hfrees c rfl, fun hfrees d hd => hd ▸ hfrees⟩

/-- A script that calls `connect` on an accepted socket, and a connection that breaks then. -/
def reconnectRun : List Event :=
  [.call (.listen true), .connected 40000 80, .call (.connect 0 80 40001 true false), .reconnected 0 []]

end EspClock.Net
