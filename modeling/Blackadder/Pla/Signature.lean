import Blackadder.Pla.Packing
import Mathlib.Data.Int.ModEq

/-!
# Implicit certificates and signatures

`ec_create_key`, `ec_sign_self` and `ec_verify_self`. The verifier finds the key of the signer from
the implicit certificate, the identity and the key of the trusted third party.
-/

namespace Blackadder.Pla

open Gnb Ec

variable (ops : Ops) (ripemd160 : List UInt8 → Octets 20)

/-- `mpz_import` of bytes that begin with the high one. -/
def fromBigEndian (bytes : List UInt8) : Nat := bytes.foldl (fun m b => 256 * m + b.toNat) 0

/-- `elem_to_int`. -/
def elemToInt (a : Elem) : Int := a.coefs.toNat

/-- `elem_import_bytes` and `elem_chomp`, of a hash with a zero byte behind it. What is read behind
that byte is cut off. -/
def hashElem (hash : Octets 20) : Elem :=
  elemOfWords fun j => if j < 5 then fromBigEndian ((hash.val.drop (4 * j)).take 4) else 0

/-- With the `k` of `ec_keygen`. -/
def ecSignSelf (k : Int) (m : Octets 20) (sigma : Int) : SelfSig :=
  let v := ops.ecMultiply basePoint k
  let r := ripemd160 (m.val ++ elemBytes v.x)
  let ri := fromBigEndian r.val % order
  ⟨r, (k - ri * sigma) % order⟩

/-- With `e.y`, and with the `rho` and `b` of the signature. -/
def ecVerifySelf (eY : Point) (rho : Elem) (b : Bool) (sig : SelfSig) (m id : Octets 20) : Bool :=
  let sgd := ops.ecMultiply basePoint sig.s
  let rhoyd := ops.ecMultiply eY (elemToInt rho % order)
  let eta := ops.ecSub (ecDecompressPoint (gnbAdd rho (hashElem id)) b) rhoyd
  let reta := ops.ecMultiply eta (fromBigEndian sig.r.val % order)
  decide (sig.r = ripemd160 (m.val ++ elemBytes (ops.ecAdd sgd reta).x))

/-- What `ec_create_key` makes for a user. -/
structure Key where
  implCert : Elem
  implCertB : Bool
  privateKey : Int

/-- With the two numbers that `ec_keygen` draws. -/
def ecCreateKey (k kT : Int) (idHash : Octets 20) (ttpPrivateKey : Int) : Key :=
  let r := ops.ecAdd (ops.ecMultiply basePoint k) (ops.ecMultiply basePoint kT)
  let implCert := gnbAdd (hashElem idHash) r.x
  let si := (kT - elemToInt implCert * ttpPrivateKey) % order
  ⟨implCert, ecCompressPoint r, (k + si) % order⟩

variable {ops ripemd160} {pt : Int → Point} (h : ops.Correct pt) {k kT kv ttp i j : Int}
  {id id' m : Octets 20}
include h

theorem point_congr (hij : i ≡ j [ZMOD order]) : pt i = pt j := by
  rw [← h.emod (k := i), hij.eq, h.emod]

theorem createKey_point :
    ops.ecAdd (ops.ecMultiply basePoint k) (ops.ecMultiply basePoint kT) = pt (k + kT) := by
  rw [h.base, h.base, h.add]

/-- The exponent of the point that the verifier hashes, where it decompresses the point of `j`. -/
theorem verify_sign (hj : ecDecompressPoint
      (gnbAdd (ecCreateKey ops k kT id ttp).implCert (hashElem id'))
      (ecCreateKey ops k kT id ttp).implCertB = pt j) :
    ecVerifySelf ops ripemd160 (pt ttp) (ecCreateKey ops k kT id ttp).implCert
      (ecCreateKey ops k kT id ttp).implCertB
      (ecSignSelf ops ripemd160 kv m (ecCreateKey ops k kT id ttp).privateKey) m id' =
    let r := ripemd160 (m.val ++ elemBytes (pt kv).x)
    decide (r = ripemd160 (m.val ++
      elemBytes (pt (kv + fromBigEndian r.val % order * (j - (k + kT)))).x)) := by
  simp only [ecVerifySelf, hj, ecSignSelf, h.base]
  set r := ripemd160 (m.val ++ elemBytes (pt kv).x)
  set ri : Int := (fromBigEndian r.val : Int) % order
  set key := ecCreateKey ops k kT id ttp with hkey
  have hpoint : ops.ecAdd (pt ((kv - ri * key.privateKey) % order))
      (ops.ecMultiply (ops.ecSub (pt j) (ops.ecMultiply (pt ttp) (elemToInt key.implCert % order)))
        ri) = pt (kv + ri * (j - (k + kT))) := by
    rw [h.multiply, h.sub, h.multiply, h.add]
    apply point_congr h
    have hpriv : key.privateKey ≡ k + (kT - elemToInt key.implCert * ttp) [ZMOD order] :=
      (Int.mod_modEq _ _).trans (Int.ModEq.rfl.add (Int.mod_modEq _ _))
    have hcert : elemToInt key.implCert % order ≡ elemToInt key.implCert [ZMOD order] :=
      Int.mod_modEq _ _
    calc (kv - ri * key.privateKey) % order +
          ri * (j - elemToInt key.implCert % order * ttp)
        ≡ kv - ri * (k + (kT - elemToInt key.implCert * ttp)) +
          ri * (j - elemToInt key.implCert * ttp) [ZMOD order] :=
          ((Int.mod_modEq _ _).trans (Int.ModEq.rfl.sub (hpriv.mul_left ri))).add
            ((Int.ModEq.rfl.sub (hcert.mul_right ttp)).mul_left ri)
      _ = kv + ri * (j - (k + kT)) := by ring
  rw [hpoint]

/-- What the holder of a key signs is found good where the identity is the one of the key. -/
theorem verify_own : ecVerifySelf ops ripemd160 (pt ttp) (ecCreateKey ops k kT id ttp).implCert
    (ecCreateKey ops k kT id ttp).implCertB
    (ecSignSelf ops ripemd160 kv m (ecCreateKey ops k kT id ttp).privateKey) m id = true := by
  have hback : ecDecompressPoint (gnbAdd (ecCreateKey ops k kT id ttp).implCert (hashElem id))
      (ecCreateKey ops k kT id ttp).implCertB = pt (k + kT) := by
    simp only [ecCreateKey, createKey_point h, add_eq]
    have hx : hashElem id + (pt (k + kT)).x + hashElem id = (pt (k + kT)).x := by
      rw [add_right_comm, double, zero_add]
    rw [hx, h.decompress]
  rw [verify_sign h hback]
  simp

end Blackadder.Pla
