import EspClock.Lib.RefTable
import EspClock.Lib.Run

/-!
# Accepted sockets

The TCP server of the `net` module keeps the registry references of the sockets it accepted in a table. The espconn of a
socket and its userdata point to each other, and the espconn carries the callbacks that the SDK calls. Userdata and espconns
are numbered in the order in which they are made, so that none is taken for another.
-/

namespace EspClock.Net

def maxSocket : Nat := 5

/-- The functions that a script can give for a socket. -/
inductive Callback
  | connect
  | reconnect
  | disconnect
  | receive
  | send
  | dnsFound
deriving DecidableEq

def callbacks : List Callback := [.connect, .reconnect, .disconnect, .receive, .send, .dnsFound]

/-- What the registry holds: sockets, the functions given for them and for the server, and values of other modules. -/
inductive Value
  | socket (u : Nat)
  | callback (u : Nat) (k : Callback)
  | serverConnect
  | other (n : Nat)
deriving DecidableEq

/-- The callbacks for accepted sockets and for client sockets. -/
inductive Handler
  | server
  | socket
deriving DecidableEq

structure Userdata where
  espConn : Option Nat
  selfRef : Option Nat
  callbackRef : Callback → Option Nat

structure Espconn where
  live : Bool
  reverse : Option Nat
  remotePort : Nat
  localPort : Nat
  connectcb : Option Handler
  disconcb : Option Handler
  reconcb : Option Handler

inductive Action
  | call (function argument : Option Value)
  | disconnect (c : Nat)
  | connect (c : Nat)
  | gethostbyname (c : Nat)

structure State where
  socket : Fin maxSocket → Option Nat
  socketNum : Int
  tcpserverCbConnectRef : Option Nat
  registry : RefTable Value
  userdata : Nat → Userdata
  espconn : Nat → Espconn
  otherRef : Nat → Option Nat
  nextUserdata : Nat
  nextEspconn : Nat

def initial : State where
  socket _ := none
  socketNum := 0
  tcpserverCbConnectRef := none
  registry := .empty
  userdata _ := ⟨none, none, fun _ => none⟩
  espconn _ := ⟨false, none, 0, 0, none, none, none⟩
  otherRef _ := none
  nextUserdata := 0
  nextEspconn := 0

/-! ### References -/

namespace State

def setUserdata (s : State) (u : Nat) (f : Userdata → Userdata) : State :=
  { s with userdata := Function.update s.userdata u (f (s.userdata u)) }

def setEspconn (s : State) (c : Nat) (f : Espconn → Espconn) : State :=
  { s with espconn := Function.update s.espconn c (f (s.espconn c)) }

/-- The variable that keeps the reference to a value. -/
def slot (s : State) : Value → Option Nat
  | .socket u => (s.userdata u).selfRef
  | .callback u k => (s.userdata u).callbackRef k
  | .serverConnect => s.tcpserverCbConnectRef
  | .other n => s.otherRef n

def setSlot (s : State) (v : Value) (r : Option Nat) : State :=
  match v with
  | .socket u => s.setUserdata u fun d => { d with selfRef := r }
  | .callback u k => s.setUserdata u fun d => { d with callbackRef := Function.update d.callbackRef k r }
  | .serverConnect => { s with tcpserverCbConnectRef := r }
  | .other n => { s with otherRef := Function.update s.otherRef n r }

/-- `luaL_unref` of the old reference, if there is one, and `luaL_ref`. -/
def refer (s : State) (v : Value) : State :=
  let p := s.registry.replace (s.slot v) v
  { s.setSlot v (some p.2) with registry := p.1 }

/-- `luaL_unref` of the reference, if there is one, which is no reference then. -/
def release (s : State) (v : Value) : State :=
  match s.slot v with
  | none => s
  | some r => { s.setSlot v none with registry := s.registry.unref r }

def disconnectBound (s : State) (c : Nat) : List Action :=
  if (s.espconn c).remotePort ≠ 0 ∨ (s.espconn c).localPort ≠ 0 then [.disconnect c] else []

end State

/-! ### Lua calls -/

/-- `net_dns`: the second argument is checked after the socket was referenced again. -/
def netDns (s : State) (u : Nat) (domain : Option (List UInt8)) (callback : Bool) : State × List Action :=
  match (s.userdata u).espConn with
  | none => (s, [])
  | some c =>
    let s := s.refer (.socket u)
    match domain with
    | none => (s, [])
    | some name =>
      if name.length > 128 then (s, [])
      else (if callback then s.refer (.callback u .dnsFound) else s, [.gethostbyname c])

def socketConnect (s : State) (c : Nat) : List Action :=
  match (s.espconn c).reverse with
  | none => []
  | some _ => [.connect c]

/-- `net_start` on a socket. -/
def netSocketConnect (s : State) (u port localPort : Nat) (address callback : Bool) : State × List Action :=
  match (s.userdata u).espConn with
  | none => (s, [])
  | some c =>
    let s := s.setEspconn c fun p => { p with remotePort := port, localPort := localPort }
    let s := if callback then s.refer (.callback u .connect) else s
    let s := s.refer (.socket u)
    let s := s.setEspconn c fun p => { p with connectcb := some .socket, reconcb := some .socket }
    (s, s.disconnectBound c ++ if address then socketConnect s c else [.gethostbyname c])

/-- `net_close` on a socket only asks for the disconnection. -/
def netSocketClose (s : State) (u : Nat) : State × List Action :=
  match (s.userdata u).espConn with
  | none => (s, [])
  | some c => (s, s.disconnectBound c)

/-- `net_on` reads the type of the connection first, which a socket without one does not have. -/
def netSocketOn (s : State) (u : Nat) (k : Callback) : State × List Action :=
  match (s.userdata u).espConn with
  | none => (s, [])
  | some _ => (s.refer (.callback u k), [])

def netServerListen (s : State) (callback : Bool) : State × List Action :=
  (if callback then s.refer .serverConnect else s, [])

/-- The disconnections that `net_close` on the server asks for. -/
def netServerClose (s : State) : State × List Action :=
  let s := s.release .serverConnect
  (s, (List.finRange maxSocket).flatMap fun i =>
    match (s.socket i).bind s.registry.cells with
    | some (.socket u) =>
      match (s.userdata u).espConn with
      | none => []
      | some c => s.disconnectBound c
    | _ => [])

def netDelete (s : State) (u : Nat) : State :=
  let s :=
    match (s.userdata u).espConn with
    | none => s
    | some c =>
      (s.setEspconn c fun p => { p with reverse := none, live := false }).setUserdata u fun d => { d with espConn := none }
  (callbacks.foldl (fun s k => s.release (.callback u k)) s).release (.socket u)

/-- What a script does; other modules store values in the registry too, and the collector deletes sockets that nothing
refers to. -/
inductive Call
  | dns (u : Nat) (domain : Option (List UInt8)) (callback : Bool)
  | connect (u port localPort : Nat) (address callback : Bool)
  | close (u : Nat)
  | socketOn (u : Nat) (k : Callback)
  | listen (callback : Bool)
  | closeServer
  | ref (n : Nat)
  | unref (n : Nat)
  | collect (u : Nat)

def runCall (s : State) : Call → State × List Action
  | .dns u domain callback => netDns s u domain callback
  | .connect u port localPort address callback => netSocketConnect s u port localPort address callback
  | .close u => netSocketClose s u
  | .socketOn u k => netSocketOn s u k
  | .listen callback => netServerListen s callback
  | .closeServer => netServerClose s
  | .ref n => (s.refer (.other n), [])
  | .unref n => (s.release (.other n), [])
  | .collect u => (if (s.userdata u).selfRef = none then netDelete s u else s, [])

def lua : Machine State Call Action := ⟨runCall⟩

/-! ### Callbacks of the SDK -/

/-- `net_server_connected`: what the function that is called does are the calls that follow. -/
def netServerConnected (s : State) (c : Nat) : State × List Action :=
  match Fin.find? fun i => (s.socket i).isNone with
  | none => (s.setEspconn c fun p => { p with reverse := none }, s.disconnectBound c)
  | some i =>
    match s.tcpserverCbConnectRef with
    | none => (s, [])
    | some f =>
      let u := s.nextUserdata
      let p := s.registry.ref (.socket u)
      ({ s with
          registry := p.1
          userdata := Function.update s.userdata u ⟨some c, some p.2, fun _ => none⟩
          nextUserdata := u + 1
          socket := Function.update s.socket i (some p.2)
          socketNum := s.socketNum + 1
          espconn := Function.update s.espconn c
            { s.espconn c with reverse := some u, disconcb := some .server, reconcb := some .server } },
        [.call (s.registry.cells f) (some (.socket u))])

def netSocketConnected (s : State) (c : Nat) : State × List Action :=
  match (s.espconn c).reverse with
  | none => (s, [])
  | some u =>
    (s.setEspconn c fun p => { p with disconcb := some .socket },
      match (s.userdata u).callbackRef .connect, (s.userdata u).selfRef with
      | some f, some r => [.call (s.registry.cells f) (s.registry.cells r)]
      | _, _ => [])

/-- The script's function for a disconnection, which makes the given calls. -/
def callDisconnect (s : State) (u : Nat) (calls : List Call) : State × List Action :=
  match (s.userdata u).callbackRef .disconnect, (s.userdata u).selfRef with
  | some f, some r =>
    (lua.final s calls, .call (s.registry.cells f) (s.registry.cells r) :: lua.trace s calls)
  | _, _ => (s, [])

/-- The loop of `net_server_disconnected` over the table. -/
def forgetSocket (s : State) (u : Nat) : State :=
  match Fin.find? fun i => (s.socket i).isSome && s.socket i == (s.userdata u).selfRef with
  | none => s
  | some i =>
    let s :=
      match (s.userdata u).espConn with
      | none => s
      | some c => s.setEspconn c fun p => { p with reverse := none }
    let s := (s.setUserdata u fun d => { d with espConn := none }).release (.socket u)
    { s with socket := Function.update s.socket i none, socketNum := s.socketNum - 1 }

/-- `net_server_disconnected` and `net_server_reconnected`. -/
def netServerDisconnected (s : State) (c : Nat) (calls : List Call) : State × List Action :=
  match (s.espconn c).reverse with
  | none => (s, [])
  | some u =>
    let p := callDisconnect s u calls
    (forgetSocket p.1 u, p.2)

/-- `net_socket_disconnected` and `net_socket_reconnected`, which free the espconn. -/
def netSocketDisconnected (s : State) (c : Nat) (calls : List Call) : State × List Action :=
  match (s.espconn c).reverse with
  | none => (s, [])
  | some u =>
    let p := callDisconnect s u calls
    let s :=
      match (p.1.userdata u).espConn with
      | none => p.1
      | some c => p.1.setEspconn c fun q => { q with live := false }
    ((s.setUserdata u fun d => { d with espConn := none }).release (.socket u), p.2)

def disconnect (s : State) (handler : Option Handler) (c : Nat) (calls : List Call) : State × List Action :=
  match handler with
  | none => (s, [])
  | some .server => netServerDisconnected s c calls
  | some .socket => netSocketDisconnected s c calls

/-- The SDK frees an espconn once it has reported the end of its connection, and reports nothing of it any more. -/
def endConnection (s : State) (handler : Option Handler) (c : Nat) (calls : List Call) : State × List Action :=
  if (s.espconn c).live then
    let p := disconnect s handler c calls
    (p.1.setEspconn c fun q => { q with live := false }, p.2)
  else (s, [])

/-- A connection that the SDK accepted, with the callback of the listening espconn. -/
def accepted (remotePort localPort : Nat) : Espconn :=
  ⟨true, none, remotePort, localPort, some .server, none, none⟩

inductive Event
  | connected (remotePort localPort : Nat)
  | socketConnected (c : Nat)
  | disconnected (c : Nat) (calls : List Call)
  | reconnected (c : Nat) (calls : List Call)
  | call (call : Call)

def step (s : State) : Event → State × List Action
  | .connected remotePort localPort =>
    let c := s.nextEspconn
    netServerConnected
      { s with espconn := Function.update s.espconn c (accepted remotePort localPort), nextEspconn := c + 1 } c
  | .socketConnected c =>
    if (s.espconn c).live && (s.espconn c).connectcb == some .socket then netSocketConnected s c else (s, [])
  | .disconnected c calls => endConnection s (s.espconn c).disconcb c calls
  | .reconnected c calls => endConnection s (s.espconn c).reconcb c calls
  | .call call => runCall s call

def net : Machine State Event Action := ⟨step⟩

end EspClock.Net
