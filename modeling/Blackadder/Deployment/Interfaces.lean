import Blackadder.Deployment.Parser
import Blackadder.Lib.Mirror
import Mathlib.Data.List.Basic
import Mathlib.Logic.Function.Basic

/-!
# Interfaces of a simulated network

A connection is named by its place: the index of its node and its index there. An access through
a null pointer ends the run.
-/

namespace Blackadder.Deployment

/-! ## Names and addresses -/

/-- The name of a device. -/
def deviceName (offset : Nat) : String := "eth" ++ toString offset

/-- The six bytes of an address, the highest first. -/
def macBytes (id : BitVec 64) : List Nat :=
  [40, 32, 24, 16, 8, 0].map fun s => (id >>> s &&& 0xff).toNat

/-- `std::setw(2)` in hexadecimal, filled with `0`. -/
def hexByte (b : Nat) : List Char := [Nat.digitChar (b / 16), Nat.digitChar (b % 16)]

def macString (id : BitVec 64) : String :=
  String.ofList (List.intercalate [':'] ((macBytes id).map hexByte))

/-- `Domain::getNextMacAddress`. -/
def Domain.getNextMacAddress (dm : Domain) : String × Domain :=
  (macString dm.id, { dm with id := dm.id + 1 })

/-! ## Places -/

/-- `network_nodes[i]->connections[j]`. -/
def Domain.connection? (dm : Domain) (p : Nat × Nat) : Option NetworkConnection :=
  dm.network_nodes[p.1]?.bind (·.connections[p.2]?)

def Domain.modifyConnection (dm : Domain) (p : Nat × Nat)
    (f : NetworkConnection → NetworkConnection) : Domain :=
  { dm with network_nodes := dm.network_nodes.modify p.1 fun nn =>
      { nn with connections := nn.connections.modify p.2 f } }

/-- `nn->deviceOffset++`. -/
def Domain.nextDevice (dm : Domain) (i : Nat) : Domain :=
  { dm with network_nodes := dm.network_nodes.modify i fun nn =>
      { nn with deviceOffset := nn.deviceOffset + 1 } }

/-- `Domain::getNode`: the first node with the label. -/
def Domain.getNode (dm : Domain) (label : String) : Option Nat :=
  dm.network_nodes.findIdx? (·.label = label)

/-- `NetworkNode::getConnection`: the first connection between the labels. -/
def NetworkNode.getConnection (nn : NetworkNode) (src_label dst_label : String) : Option Nat :=
  nn.connections.findIdx? fun nc => nc.src_label = src_label ∧ nc.dst_label = dst_label

/-- The places in the order of the two loops. -/
def Domain.places (dm : Domain) : List (Nat × Nat) :=
  (List.range dm.network_nodes.length).flatMap fun i =>
    (List.range ((dm.network_nodes[i]?.map (·.connections.length)).getD 0)).map fun j => (i, j)

/-- An assignment to a member at `q` from the connection at `p`, which may be the same object. -/
def Domain.copy (dm : Domain) (q p : Nat × Nat)
    (set : NetworkConnection → NetworkConnection → NetworkConnection) : Domain :=
  match dm.connection? p with
  | none => dm
  | some nc => dm.modifyConnection q fun neighbourConnection => set neighbourConnection nc

/-- The four assignments to `neighbourConnection`, in their order. -/
def Domain.mirror (dm : Domain) (q p : Nat × Nat) : Domain :=
  let dm := dm.copy q p fun neighbourConnection nc => { neighbourConnection with src_if := nc.dst_if }
  let dm := dm.copy q p fun neighbourConnection nc => { neighbourConnection with dst_if := nc.src_if }
  let dm := dm.copy q p fun neighbourConnection nc => { neighbourConnection with src_mac := nc.dst_mac }
  dm.copy q p fun neighbourConnection nc => { neighbourConnection with dst_mac := nc.src_mac }

/-- The turn of the loops for one connection. -/
def Domain.assignDevice (dm : Domain) (p : Nat × Nat) : Option Domain := do
  let nc ← dm.connection? p
  if nc.src_if = "" ∧ nc.dst_if = "" then
    let nn ← dm.network_nodes[p.1]?
    let k ← dm.getNode nc.dst_label
    let neighbour ← dm.network_nodes[k]?
    let (src_mac, dm) := dm.getNextMacAddress
    let (dst_mac, dm) := dm.getNextMacAddress
    let dm := dm.modifyConnection p fun nc => { nc with
      src_if := deviceName nn.deviceOffset, src_mac := src_mac
      dst_if := deviceName neighbour.deviceOffset, dst_mac := dst_mac }
    let dm := (dm.nextDevice p.1).nextDevice k
    let m ← neighbour.getConnection nc.dst_label nc.src_label
    some (dm.mirror (k, m) p)
  else some dm

/-- `Domain::assignDeviceNamesAndMacAddresses`. -/
def assignDeviceNamesAndMacAddresses (dm : Domain) : Option Domain :=
  dm.places.foldlM Domain.assignDevice dm

/-! ## The state of the loops -/

/-- What a connection has of its two ends. -/
structure Ends where
  src_if : String
  dst_if : String
  src_mac : String
  dst_mac : String

def Ends.blank : Ends := ⟨"", "", "", ""⟩

/-- The ends as the other connection of a link has them. -/
def Ends.swap (e : Ends) : Ends := ⟨e.dst_if, e.src_if, e.dst_mac, e.src_mac⟩

/-- The four assignments where both sides are the same object. -/
def Ends.turned (e : Ends) : Ends := ⟨e.dst_if, e.dst_if, e.dst_mac, e.dst_mac⟩

/-- What the loops change: the ends of the connections, the next device of each node and the
counter of addresses. -/
structure Wiring where
  ends : Nat × Nat → Ends
  dev : Nat → Nat
  id : BitVec 64

def NetworkConnection.fill (e : Ends) (nc : NetworkConnection) : NetworkConnection :=
  { nc with src_if := e.src_if, dst_if := e.dst_if, src_mac := e.src_mac, dst_mac := e.dst_mac }

/-- The domain with a state of the loops. -/
def Domain.render (dm : Domain) (s : Wiring) : Domain :=
  { dm with
    network_nodes := dm.network_nodes.mapIdx fun i nn => { nn with
      connections := nn.connections.mapIdx fun j nc => nc.fill (s.ends (i, j))
      deviceOffset := s.dev i }
    id := s.id }

variable {dm dm' : Domain} {s : Wiring} {p q r : Nat × Nat} {nc : NetworkConnection}
  {nn : NetworkNode} {i j k m : Nat}

@[simp]
theorem render_getElem? (dm : Domain) (s : Wiring) (i : Nat) :
    (dm.render s).network_nodes[i]? = dm.network_nodes[i]?.map fun nn => { nn with
      connections := nn.connections.mapIdx fun j nc => nc.fill (s.ends (i, j))
      deviceOffset := s.dev i } := by
  simp [Domain.render]

theorem render_connection? (dm : Domain) (s : Wiring) (p : Nat × Nat) :
    (dm.render s).connection? p = (dm.connection? p).map (·.fill (s.ends p)) := by
  unfold Domain.connection?
  rw [render_getElem?]
  cases dm.network_nodes[p.1]? with
  | none => rfl
  | some nn => simp

theorem findIdx?_mapIdx {α β : Type*} {F : Nat → α → β} {P : β → Bool} {Q : α → Bool}
    (h : ∀ i a, P (F i a) = Q a) (l : List α) : (l.mapIdx F).findIdx? P = l.findIdx? Q := by
  induction l generalizing F with
  | nil => rfl
  | cons a l ih =>
    rw [List.mapIdx_cons, List.findIdx?_cons, List.findIdx?_cons, h, ih fun i a => h (i + 1) a]

theorem modify_mapIdx {α β : Type*} {F G : Nat → α → β} {f : β → β} {i : Nat}
    (hi : ∀ a, f (F i a) = G i a) (hne : ∀ j a, j ≠ i → F j a = G j a) (l : List α) :
    (l.mapIdx F).modify i f = l.mapIdx G := by
  apply List.ext_getElem?
  intro j
  rw [List.getElem?_modify, List.getElem?_mapIdx, List.getElem?_mapIdx]
  by_cases hij : i = j
  · subst hij
    cases l[i]? with
    | none => rfl
    | some a => simp [hi]
  · cases l[j]? with
    | none => simp
    | some a => simp [hij, hne j a (Ne.symm hij)]

theorem render_getNode (dm : Domain) (s : Wiring) (label : String) :
    (dm.render s).getNode label = dm.getNode label := by
  unfold Domain.getNode Domain.render
  refine findIdx?_mapIdx ?_ _
  intro i nn
  rfl

theorem render_getConnection (nn : NetworkNode) (ends : Nat → Ends) (dev : Nat)
    (src_label dst_label : String) :
    NetworkNode.getConnection { nn with
      connections := nn.connections.mapIdx fun j nc => nc.fill (ends j)
      deviceOffset := dev } src_label dst_label = nn.getConnection src_label dst_label := by
  unfold NetworkNode.getConnection
  refine findIdx?_mapIdx ?_ _
  intro j nc
  rfl

theorem render_modifyConnection {f : NetworkConnection → NetworkConnection} {g : Ends → Ends}
    (hf : ∀ e (nc : NetworkConnection), f (nc.fill e) = nc.fill (g e)) (dm : Domain) (s : Wiring)
    (p : Nat × Nat) : (dm.render s).modifyConnection p f =
      dm.render { s with ends := Function.update s.ends p (g (s.ends p)) } := by
  obtain ⟨i, j⟩ := p
  unfold Domain.modifyConnection Domain.render
  congr 1
  refine modify_mapIdx ?_ ?_ _
  · intro nn
    have hrow := modify_mapIdx (F := fun k nc => NetworkConnection.fill (s.ends (i, k)) nc)
      (G := fun k nc => NetworkConnection.fill
        (Function.update s.ends (i, j) (g (s.ends (i, j))) (i, k)) nc) (f := f) (i := j)
      (fun nc => by rw [hf, Function.update_self])
      (fun k nc hk => by rw [Function.update_of_ne fun h => hk (Prod.mk.inj h).2]) nn.connections
    simp only [hrow]
  · intro i' nn hi
    have hrow : ∀ k, Function.update s.ends (i, j) (g (s.ends (i, j))) (i', k) = s.ends (i', k) :=
      fun k => Function.update_of_ne (fun h => hi (Prod.mk.inj h).1) _ _
    simp only [hrow]

theorem render_nextDevice (dm : Domain) (s : Wiring) (i : Nat) :
    (dm.render s).nextDevice i = dm.render { s with dev := Function.update s.dev i (s.dev i + 1) } := by
  unfold Domain.nextDevice Domain.render
  congr 1
  refine modify_mapIdx ?_ ?_ _
  · intro nn
    simp
  · intro i' nn hi
    simp [hi]

theorem render_copy {set : NetworkConnection → NetworkConnection → NetworkConnection}
    {g : Ends → Ends → Ends} (hp : dm.connection? p = some nc)
    (hset : ∀ e e' (nc nc' : NetworkConnection), set (nc.fill e) (nc'.fill e') = nc.fill (g e e')) :
    (dm.render s).copy q p set =
      dm.render { s with ends := Function.update s.ends q (g (s.ends q) (s.ends p)) } := by
  unfold Domain.copy
  rw [render_connection?, hp, Option.map_some]
  exact render_modifyConnection (g := fun e => g e (s.ends p)) (fun e nc' => hset _ _ _ _) dm s q

theorem render_getNextMacAddress (dm : Domain) (s : Wiring) : (dm.render s).getNextMacAddress =
    (macString s.id, dm.render { s with id := s.id + 1 }) := rfl

theorem render_mirror (hp : dm.connection? p = some nc) (s : Wiring) (q : Nat × Nat) :
    (dm.render s).mirror q p = dm.render { s with
      ends := Function.update s.ends q (if p = q then (s.ends p).turned else (s.ends p).swap) } := by
  unfold Domain.mirror
  dsimp only
  rw [render_copy (g := fun e e' => { e with src_if := e'.dst_if }) hp fun _ _ _ _ => rfl,
    render_copy (g := fun e e' => { e with dst_if := e'.src_if }) hp fun _ _ _ _ => rfl,
    render_copy (g := fun e e' => { e with src_mac := e'.dst_mac }) hp fun _ _ _ _ => rfl,
    render_copy (g := fun e e' => { e with dst_mac := e'.src_mac }) hp fun _ _ _ _ => rfl]
  congr 2
  by_cases hpq : p = q
  · subst hpq
    simp [Ends.turned]
  · simp [hpq, Ends.swap]

/-- The place of `neighbourConnection`. -/
def Domain.mirrorOf? (dm : Domain) (p : Nat × Nat) : Option (Nat × Nat) := do
  let nc ← dm.connection? p
  let k ← dm.getNode nc.dst_label
  let neighbour ← dm.network_nodes[k]?
  let m ← neighbour.getConnection nc.dst_label nc.src_label
  some (k, m)

/-- The turn of the loops, where `q` is the place of `neighbourConnection`. -/
def Wiring.step (s : Wiring) (p q : Nat × Nat) : Wiring :=
  if (s.ends p).src_if = "" ∧ (s.ends p).dst_if = "" then
    let e : Ends := ⟨deviceName (s.dev p.1), deviceName (s.dev q.1), macString s.id,
      macString (s.id + 1)⟩
    let dev := Function.update s.dev p.1 (s.dev p.1 + 1)
    { ends := Function.update (Function.update s.ends p e) q (if p = q then e.turned else e.swap)
      dev := Function.update dev q.1 (dev q.1 + 1)
      id := s.id + 1 + 1 }
  else s

theorem assignDevice_render (hmir : dm.mirrorOf? p = some q) (s : Wiring) :
    (dm.render s).assignDevice p = some (dm.render (s.step p q)) := by
  unfold Domain.mirrorOf? at hmir
  simp only [Option.bind_eq_bind, Option.bind_eq_some_iff] at hmir
  obtain ⟨nc, hp, k, hk, neighbour, hnb, m, hm, heq⟩ := hmir
  obtain rfl := Option.some.inj heq
  obtain ⟨nn, hnn, hnc⟩ := Option.bind_eq_some_iff.mp hp
  unfold Domain.assignDevice Wiring.step
  rw [render_connection?, hp]
  simp only [Option.bind_eq_bind, Option.map_some, Option.bind_some]
  have hif : (nc.fill (s.ends p)).src_if = (s.ends p).src_if ∧
      (nc.fill (s.ends p)).dst_if = (s.ends p).dst_if := ⟨rfl, rfl⟩
  rw [hif.1, hif.2]
  by_cases hnew : (s.ends p).src_if = "" ∧ (s.ends p).dst_if = ""
  · rw [if_pos hnew, if_pos hnew, render_getElem?, hnn]
    have hlabel : (nc.fill (s.ends p)).dst_label = nc.dst_label ∧
        (nc.fill (s.ends p)).src_label = nc.src_label := ⟨rfl, rfl⟩
    rw [hlabel.1, hlabel.2, render_getNode, hk]
    simp only [Option.map_some, Option.bind_some]
    rw [render_getElem?, hnb]
    simp only [Option.map_some, Option.bind_some]
    rw [render_getConnection neighbour (fun j => s.ends (k, j)) (s.dev k), hm]
    simp only [Option.bind_some, render_getNextMacAddress]
    have hset : ∀ e (nc : NetworkConnection), { nc.fill e with
        src_if := deviceName (s.dev p.1), src_mac := macString s.id
        dst_if := deviceName (s.dev k), dst_mac := macString (s.id + 1) } =
      nc.fill ⟨deviceName (s.dev p.1), deviceName (s.dev k), macString s.id,
        macString (s.id + 1)⟩ := fun _ _ => rfl
    rw [render_modifyConnection (g := fun _ => _) hset, render_nextDevice, render_nextDevice,
      render_mirror hp]
    simp only [Function.update_self]
  · rw [if_neg hnew, if_neg hnew]

def Domain.mirrorOf (dm : Domain) (p : Nat × Nat) : Nat × Nat := (dm.mirrorOf? p).getD p

/-- Where every connection has one in the other direction, the loops do not stop. -/
theorem foldlM_render {l : List (Nat × Nat)} (h : ∀ p ∈ l, (dm.mirrorOf? p).isSome) (s : Wiring) :
    l.foldlM Domain.assignDevice (dm.render s) =
      some (dm.render (l.foldl (fun s p => s.step p (dm.mirrorOf p)) s)) := by
  induction l generalizing s with
  | nil => rfl
  | cons p l ih =>
    obtain ⟨q, hq⟩ := Option.isSome_iff_exists.mp (h p List.mem_cons_self)
    have hmir : dm.mirrorOf p = q := by rw [Domain.mirrorOf, hq, Option.getD_some]
    rw [List.foldlM_cons, assignDevice_render hq, List.foldl_cons, hmir]
    exact ih (fun p hp => h p (List.mem_cons_of_mem _ hp)) _

/-! ## What the turns leave -/

theorem deviceName_inj {n m : Nat} (h : deviceName n = deviceName m) : n = m := by
  have hlist := congrArg String.toList h
  rw [deviceName, deviceName, String.toList_append, String.toList_append] at hlist
  have hdigits := List.append_cancel_left hlist
  rw [Nat.toString_eq_repr, Nat.toString_eq_repr, Nat.toList_repr, Nat.toList_repr] at hdigits
  have hback := congrArg (fun l => Nat.ofDigitChars 10 l 0) hdigits
  simpa using hback

theorem deviceName_ne (n : Nat) : deviceName n ≠ "" := by
  intro h
  have hlist := congrArg String.toList h
  rw [deviceName, String.toList_append] at hlist
  simp at hlist

theorem digitChar_inj : ∀ a < 16, ∀ b < 16, Nat.digitChar a = Nat.digitChar b → a = b := by decide

theorem byte_inj {a b : Nat} (ha : a < 256) (hb : b < 256)
    (h1 : Nat.digitChar (a / 16) = Nat.digitChar (b / 16))
    (h2 : Nat.digitChar (a % 16) = Nat.digitChar (b % 16)) : a = b := by
  have h1 := digitChar_inj _ (by omega) _ (by omega) h1
  have h2 := digitChar_inj _ (by omega) _ (by omega) h2
  omega

theorem byte_eq (x : BitVec 64) (s : Nat) : (x >>> s &&& 0xff).toNat = x.toNat / 2 ^ s % 256 := by
  rw [BitVec.toNat_and, BitVec.toNat_ushiftRight, Nat.shiftRight_eq_div_pow]
  exact Nat.and_two_pow_sub_one_eq_mod _ 8

/-- An address shows the 48 lower bits of the counter. -/
theorem macString_mod {x y : BitVec 64} (h : macString x = macString y) :
    x.toNat % 2 ^ 48 = y.toNat % 2 ^ 48 := by
  have hlist := String.ofList_injective h
  simp only [macBytes, List.map_cons, List.map_nil, List.intercalate, List.intersperse,
    List.flatten_cons, List.flatten_nil, hexByte, List.cons_append, List.nil_append,
    List.cons.injEq, byte_eq, true_and, and_true] at hlist
  obtain ⟨a1, a2, b1, b2, c1, c2, d1, d2, e1, e2, f1, f2⟩ := hlist
  have ha := byte_inj (Nat.mod_lt _ (by decide)) (Nat.mod_lt _ (by decide)) a1 a2
  have hb := byte_inj (Nat.mod_lt _ (by decide)) (Nat.mod_lt _ (by decide)) b1 b2
  have hc := byte_inj (Nat.mod_lt _ (by decide)) (Nat.mod_lt _ (by decide)) c1 c2
  have hd := byte_inj (Nat.mod_lt _ (by decide)) (Nat.mod_lt _ (by decide)) d1 d2
  have he := byte_inj (Nat.mod_lt _ (by decide)) (Nat.mod_lt _ (by decide)) e1 e2
  have hf := byte_inj (Nat.mod_lt _ (by decide)) (Nat.mod_lt _ (by decide)) f1 f2
  omega

theorem macString_ne (x : BitVec 64) : macString x ≠ "" := by
  intro h
  have hlist := congrArg String.toList h
  simp [macString, macBytes, List.intercalate, List.intersperse, hexByte] at hlist

/-- A turn that assigns: the devices at both ends, and how many turns before it assigned. -/
structure Turn where
  src_dev : Nat
  dst_dev : Nat
  num : Nat

/-- The counter after some turns that assigned. -/
def addressAfter (id : BitVec 64) (turns : Nat) : BitVec 64 := id + BitVec.ofNat 64 (2 * turns)

/-- The addresses of the first `2 ^ 47` turns that assign are all different. -/
theorem addressAfter_inj (id : BitVec 64) {n n' b b' : Nat} (hn : n < 2 ^ 47) (hn' : n' < 2 ^ 47)
    (hb : b ≤ 1) (hb' : b' ≤ 1)
    (h : macString (addressAfter id n + BitVec.ofNat 64 b) =
      macString (addressAfter id n' + BitVec.ofNat 64 b')) : n = n' := by
  have hmod := macString_mod h
  simp only [addressAfter, BitVec.toNat_add, BitVec.toNat_ofNat] at hmod
  omega

def Turn.ends (id : BitVec 64) (t : Turn) : Ends :=
  ⟨deviceName t.src_dev, deviceName t.dst_dev, macString (addressAfter id t.num),
    macString (addressAfter id t.num + 1)⟩

/-- What the turn of `q` writes at `r`. -/
def written (mir : Nat × Nat → Nat × Nat) (id : BitVec 64) (turn : Nat × Nat → Turn) (q r : Nat × Nat) :
    Ends :=
  if q = r then if mir q = q then ((turn q).ends id).turned else (turn q).ends id
  else ((turn q).ends id).swap

/-- The turn of `q` uses device `d` of node `i`. -/
def Uses (mir : Nat × Nat → Nat × Nat) (turn : Nat × Nat → Turn) (q : Nat × Nat) (i d : Nat) : Prop :=
  (q.1 = i ∧ (turn q).src_dev = d) ∨ ((mir q).1 = i ∧ (turn q).dst_dev = d)

/-- The state of the loops after the turns in a log. -/
structure Tracks (mir : Nat × Nat → Nat × Nat) (id : BitVec 64) (log : List (Nat × Nat))
    (turn : Nat × Nat → Turn) (s : Wiring) : Prop where
  ends : ∀ r, s.ends r = match Mirror.lastWrite mir log r with
    | none => .blank
    | some q => written mir id turn q r
  id : s.id = addressAfter id log.length
  num : ∀ q ∈ log, (turn q).num < log.length
  num_inj : ∀ q ∈ log, ∀ q' ∈ log, (turn q).num = (turn q').num → q = q'
  used : ∀ q ∈ log, ∀ i d, Uses mir turn q i d → d < s.dev i
  once : ∀ q ∈ log, ∀ q' ∈ log, ∀ i d, Uses mir turn q i d → Uses mir turn q' i d → q = q'
  loop : ∀ q ∈ log, (mir q).1 = q.1 → (turn q).src_dev = (turn q).dst_dev

variable {mir : Nat × Nat → Nat × Nat} {id : BitVec 64} {log : List (Nat × Nat)} {turn : Nat × Nat → Turn}

theorem written_src_if_ne (q r : Nat × Nat) : (written mir id turn q r).src_if ≠ "" := by
  unfold written
  split
  · split <;> exact deviceName_ne _
  · exact deviceName_ne _

theorem Tracks.blank_iff (h : Tracks mir id log turn s) (p : Nat × Nat) :
    ((s.ends p).src_if = "" ∧ (s.ends p).dst_if = "") ↔ Mirror.lastWrite mir log p = none := by
  rw [h.ends]
  cases Mirror.lastWrite mir log p with
  | none => simp [Ends.blank]
  | some q => simp [written_src_if_ne]

theorem tracks_nil (mir : Nat × Nat → Nat × Nat) (id : BitVec 64) (turn : Nat × Nat → Turn)
    (dev : Nat → Nat) : Tracks mir id [] turn ⟨fun _ => .blank, dev, id⟩ where
  ends _ := rfl
  id := (BitVec.add_zero id).symm
  num := by simp
  num_inj := by simp
  used := by simp
  once := by simp
  loop := by simp

theorem addressAfter_succ (id : BitVec 64) (n : Nat) :
    addressAfter id n + 1 + 1 = addressAfter id (n + 1) := by
  rw [addressAfter, addressAfter, Nat.mul_add, BitVec.ofNat_add, BitVec.add_assoc, BitVec.add_assoc]
  rfl

variable {t : Turn}

/-- The turn of `p` writes at `p` and at its mirror. -/
theorem Tracks.ends_assign (h : Tracks mir id log turn s) (hp : Mirror.lastWrite mir log p = none)
    (t : Turn) (r : Nat × Nat) :
    Function.update (Function.update s.ends p (t.ends id)) (mir p)
      (if p = mir p then (t.ends id).turned else (t.ends id).swap) r =
      match Mirror.lastWrite mir (p :: log) r with
      | none => .blank
      | some q => written mir id (Function.update turn p t) q r := by
  have hother : ∀ q ∈ log, written mir id (Function.update turn p t) q r = written mir id turn q r := by
    intro q hq
    rw [written, written, Function.update_of_ne (Mirror.lastWrite_eq_none.mp hp q hq).1]
  by_cases hm : mir p = r
  · have hlast : Mirror.lastWrite mir (p :: log) r = some p := by
      rw [Mirror.lastWrite_cons, if_pos (.inr hm)]
    rw [hlast, ← hm, Function.update_self]
    simp only [written, Function.update_self]
    by_cases hpm : p = mir p
    · rw [if_pos hpm, if_pos hpm, if_pos hpm.symm]
    · rw [if_neg hpm, if_neg hpm]
  · rw [Function.update_of_ne (Ne.symm hm)]
    by_cases hpr : p = r
    · have hlast : Mirror.lastWrite mir (p :: log) r = some p := by
        rw [Mirror.lastWrite_cons, if_pos (.inl hpr)]
      rw [hlast, ← hpr, Function.update_self]
      rw [← hpr] at hm
      simp only [written, Function.update_self, if_neg hm, if_true]
    · rw [Mirror.lastWrite_cons, if_neg (not_or.mpr ⟨hpr, hm⟩),
        Function.update_of_ne (Ne.symm hpr), h.ends]
      cases hw : Mirror.lastWrite mir log r with
      | none => rfl
      | some q => exact (hother q (Mirror.lastWrite_mem hw)).symm

theorem next_devices (dev : Nat → Nat) (i k j : Nat) :
    dev j ≤ Function.update (Function.update dev i (dev i + 1)) k
        (Function.update dev i (dev i + 1) k + 1) j ∧
      (i = j ∨ k = j → dev j < Function.update (Function.update dev i (dev i + 1)) k
        (Function.update dev i (dev i + 1) k + 1) j) := by
  by_cases hk : j = k <;> by_cases hi : j = i
  · subst hk hi
    simp
    omega
  · subst hk
    simp [hi]
  · subst hi
    simp [hk]
  · simp [hk, hi, Ne.symm hk, Ne.symm hi]

/-- A turn that assigns takes the next device at both ends and the next two addresses. -/
theorem Tracks.assign (h : Tracks mir id log turn s) (hp : Mirror.lastWrite mir log p = none) :
    Tracks mir id (p :: log) (Function.update turn p ⟨s.dev p.1, s.dev (mir p).1, log.length⟩)
      (s.step p (mir p)) := by
  have hold : ∀ q ∈ log, Function.update turn p ⟨s.dev p.1, s.dev (mir p).1, log.length⟩ q = turn q :=
    fun q hq => Function.update_of_ne (Mirror.lastWrite_eq_none.mp hp q hq).1 _ _
  have hnew : Function.update turn p ⟨s.dev p.1, s.dev (mir p).1, log.length⟩ p =
      ⟨s.dev p.1, s.dev (mir p).1, log.length⟩ := Function.update_self _ _ _
  have hends := h.ends_assign hp ⟨s.dev p.1, s.dev (mir p).1, log.length⟩
  generalize Function.update turn p ⟨s.dev p.1, s.dev (mir p).1, log.length⟩ = turn' at *
  have huses : ∀ q ∈ log, ∀ i d, Uses mir turn' q i d → Uses mir turn q i d := by
    intro q hq i d hu
    rwa [Uses, hold q hq] at hu
  have husesp : ∀ i d, Uses mir turn' p i d → (p.1 = i ∨ (mir p).1 = i) ∧ d = s.dev i := by
    rintro i d (⟨rfl, rfl⟩ | ⟨rfl, rfl⟩)
    · exact ⟨.inl rfl, by rw [hnew]⟩
    · exact ⟨.inr rfl, by rw [hnew]⟩
  rw [Wiring.step, if_pos ((h.blank_iff p).mpr hp)]
  constructor
  · intro r
    rw [← hends r, Turn.ends, ← h.id]
  · rw [h.id, addressAfter_succ, List.length_cons]
  · intro q hq
    rw [List.length_cons]
    rcases List.mem_cons.mp hq with rfl | hq₁
    · rw [hnew]
      exact Nat.lt_succ_self _
    · rw [hold q hq₁]
      exact Nat.lt_succ_of_lt (h.num q hq₁)
  · intro q hq q' hq' heq
    rcases List.mem_cons.mp hq with hqp | hq₁ <;> rcases List.mem_cons.mp hq' with hqp' | hq₁'
    · rw [hqp, hqp']
    · rw [hqp, hnew, hold q' hq₁'] at heq
      exact absurd heq (h.num q' hq₁').ne'
    · rw [hqp', hnew, hold q hq₁] at heq
      exact absurd heq (h.num q hq₁).ne
    · rw [hold q hq₁, hold q' hq₁'] at heq
      exact h.num_inj q hq₁ q' hq₁' heq
  · intro q hq i d hu
    have hdev := next_devices s.dev p.1 (mir p).1 i
    rcases List.mem_cons.mp hq with rfl | hq₁
    · obtain ⟨hi, rfl⟩ := husesp i d hu
      exact hdev.2 hi
    · exact Nat.lt_of_lt_of_le (h.used q hq₁ i d (huses q hq₁ i d hu)) hdev.1
  · intro q hq q' hq' i d hu hu'
    rcases List.mem_cons.mp hq with rfl | hq₁ <;> rcases List.mem_cons.mp hq' with hqp' | hq₁'
    · exact hqp'.symm
    · exact absurd (husesp i d hu).2 (h.used q' hq₁' i d (huses q' hq₁' i d hu')).ne
    · rw [hqp'] at hu'
      exact absurd (husesp i d hu').2 (h.used q hq₁ i d (huses q hq₁ i d hu)).ne
    · exact h.once q hq₁ q' hq₁' i d (huses q hq₁ i d hu) (huses q' hq₁' i d hu')
  · intro q hq hloop
    rcases List.mem_cons.mp hq with rfl | hq₁
    · rw [hnew, hloop]
    · rw [hold q hq₁]
      exact h.loop q hq₁ hloop

theorem Tracks.step (h : Tracks mir id log turn s) (p : Nat × Nat) :
    ∃ turn', Tracks mir id (Mirror.step mir log p) turn' (s.step p (mir p)) := by
  rw [Mirror.step]
  split
  · next hp => exact ⟨_, h.assign hp⟩
  · next hp =>
    refine ⟨turn, ?_⟩
    rwa [Wiring.step, if_neg (mt (h.blank_iff p).mp hp)]

theorem Tracks.run (h : Tracks mir id log turn s) (l : List (Nat × Nat)) :
    ∃ turn', Tracks mir id (l.foldl (Mirror.step mir) log) turn'
      (l.foldl (fun s p => s.step p (mir p)) s) := by
  induction l generalizing log turn s with
  | nil => exact ⟨turn, h⟩
  | cons p l ih =>
    obtain ⟨turn', h'⟩ := h.step p
    exact ih h'

end Blackadder.Deployment
