import TraceJvm.TextCoding
import TraceJvm.Lib.Base64

/-! The payloads of the host channel: JSON with byte arrays in an object that marks them. -/
namespace TraceJvm

open JsonText List Option

inductive HostLeaf (ν : Type) where
  | scalar (s : Scalar ν)
  | bytes (b : List UInt8)

abbrev HostValue (ν : Type) := JsonTree (HostLeaf ν)

structure RepresentableValue (ν : Type) where
  value : HostValue ν
  wellFormed : WellFormed value

def asciiUnits (s : String) : JsString := s.toList.map fun c => UInt16.ofNat c.toNat

def chunkSize : ℕ := 0x8000

def appendChunks (bytes : List UInt8) (offset : ℕ) (binary : List UInt8) : List UInt8 :=
  if offset < bytes.length then
    appendChunks bytes (offset + chunkSize) (binary ++ (bytes.drop offset).take chunkSize)
  else binary
termination_by bytes.length - offset
decreasing_by
  have hsize : 0 < chunkSize := by decide
  omega

def bytesToBase64 (bytes : List UInt8) : JsString := Base64.btoa (appendChunks bytes 0 [])

/-- `none` is the exception of `atob`. -/
def bytesFromBase64 (value : JsString) : Option (List UInt8) := Base64.atob value

def typeKey : JsString := asciiUnits "__traceJVMType"
def base64Key : JsString := asciiUnits "base64"
def bytesType : JsString := asciiUnits "bytes"
def valueKey : JsString := asciiUnits "value"

section Codec

variable {ν : Type}

def encodedBytes (bytes : List UInt8) : List (JsString × JsonTree (Scalar ν)) :=
  [(typeKey, .leaf (.string bytesType)), (base64Key, .leaf (.string (bytesToBase64 bytes)))]

/-- The replacer of `encode`. -/
def replacer : HostLeaf ν → JsonTree (Scalar ν)
  | .scalar s => .leaf s
  | .bytes b => .object (encodedBytes b)

def encode (F : NumberFormat ν) (value : HostValue ν) : List UInt8 :=
  encodeUtf8 (print F ((JsonTree.object [(valueKey, value)]).bind replacer))

def markedBase64 (ms : List (JsString × HostValue ν)) : Option JsString :=
  match OrderedMap.get ms typeKey, OrderedMap.get ms base64Key with
  | some (.leaf (.scalar (.string type))), some (.leaf (.scalar (.string base64))) =>
    if type = bytesType then some base64 else none
  | _, _ => none

/-- The reviver of `decode` on an object. -/
def reviver (ms : List (JsString × HostValue ν)) : Option (HostValue ν) :=
  match markedBase64 ms with
  | none => some (.object ms)
  | some base64 => (bytesFromBase64 base64).map fun bytes => .leaf (.bytes bytes)

mutual

/-- `JSON.parse` hands all values to the reviver, the inner ones first. -/
def revive : JsonTree (Scalar ν) → Option (HostValue ν)
  | .leaf s => some (.leaf (.scalar s))
  | .array es => (reviveElements es).map .array
  | .object ms => (reviveMembers ms).bind reviver

def reviveElements : List (JsonTree (Scalar ν)) → Option (List (HostValue ν))
  | [] => some []
  | e :: es => (revive e).bind fun v => (reviveElements es).map fun vs => v :: vs

def reviveMembers :
    List (JsString × JsonTree (Scalar ν)) → Option (List (JsString × HostValue ν))
  | [] => some []
  | (k, t) :: ms => (revive t).bind fun v => (reviveMembers ms).map fun vs => (k, v) :: vs

end

/-- The value of the envelope; `none` is an exception or the value `undefined`. -/
def decode (F : NumberFormat ν) (bytes : List UInt8) : Option (HostValue ν) :=
  (parse F (decodeUtf8 bytes)).bind fun envelope => (revive envelope).bind fun v =>
    match v with
    | .object ms => OrderedMap.get ms valueKey
    | _ => none

/-! ### Round trip -/

theorem appendChunks_eq (bytes : List UInt8) (offset : ℕ) (binary : List UInt8) :
    appendChunks bytes offset binary = binary ++ bytes.drop offset := by
  induction offset, binary using appendChunks.induct bytes with
  | case1 offset binary hlt ih =>
    rw [appendChunks, if_pos hlt, ih, append_assoc, ← drop_drop, take_append_drop]
  | case2 offset binary hge =>
    rw [appendChunks, if_neg hge, drop_eq_nil_of_le (Nat.not_lt.mp hge), append_nil]

theorem bytesFromBase64_bytesToBase64 (bytes : List UInt8) :
    bytesFromBase64 (bytesToBase64 bytes) = some bytes := by
  unfold bytesFromBase64 bytesToBase64
  rw [appendChunks_eq]
  exact Base64.atob_btoa bytes

theorem revive_encodedBytes (bytes : List UInt8) :
    revive (.object (encodedBytes bytes) : JsonTree (Scalar ν)) = some (.leaf (.bytes bytes)) := by
  have hkeys : typeKey ≠ base64Key := by decide
  have hmembers : reviveMembers (encodedBytes bytes : List (JsString × JsonTree (Scalar ν))) =
      some [(typeKey, .leaf (.scalar (.string bytesType))),
        (base64Key, .leaf (.scalar (.string (bytesToBase64 bytes))))] := rfl
  have hmarked : markedBase64 [(typeKey, (.leaf (.scalar (.string bytesType)) : HostValue ν)),
      (base64Key, .leaf (.scalar (.string (bytesToBase64 bytes))))] =
      some (bytesToBase64 bytes) := by
    simp [markedBase64, OrderedMap.get, hkeys]
  rw [revive, hmembers, bind_some, reviver, hmarked]
  dsimp only
  rw [bytesFromBase64_bytesToBase64]
  rfl

theorem reviver_eq_object {ms : List (JsString × HostValue ν)} :
    reviver ms = some (.object ms) ↔ markedBase64 ms = none := by
  unfold reviver
  cases markedBase64 ms with
  | none => exact iff_of_true rfl rfl
  | some base64 =>
    refine iff_of_false (fun h => ?_) (by simp)
    obtain ⟨bytes, -, h⟩ := map_eq_some_iff.mp h
    cases h

theorem reviveElements_bind (es : List (HostValue ν)) :
    reviveElements (JsonTree.bindElements replacer es) = some es ↔
      ∀ e ∈ es, revive (e.bind replacer) = some e := by
  induction es with
  | nil => exact iff_of_true rfl fun e he => absurd he not_mem_nil
  | cons e es ih =>
    rw [JsonTree.bindElements, reviveElements, forall_mem_cons, ← ih]
    constructor
    · intro h
      obtain ⟨v, hv, hmap⟩ := bind_eq_some_iff.mp h
      obtain ⟨vs, hvs, heq⟩ := map_eq_some_iff.mp hmap
      cases heq
      exact ⟨hv, hvs⟩
    · rintro ⟨hv, hvs⟩
      rw [hv, hvs]
      rfl

theorem reviveMembers_bind (ms : List (JsString × HostValue ν)) :
    reviveMembers (JsonTree.bindMembers replacer ms) = some ms ↔
      ∀ m ∈ ms, revive (m.2.bind replacer) = some m.2 := by
  induction ms with
  | nil => exact iff_of_true rfl fun e he => absurd he not_mem_nil
  | cons m ms ih =>
    rw [JsonTree.bindMembers, reviveMembers, forall_mem_cons, ← ih]
    constructor
    · intro h
      obtain ⟨v, hv, hmap⟩ := bind_eq_some_iff.mp h
      obtain ⟨vs, hvs, heq⟩ := map_eq_some_iff.mp hmap
      obtain ⟨hm, rfl⟩ := cons.inj heq
      exact ⟨by rw [hv, ← hm], hvs⟩
    · rintro ⟨hv, hvs⟩
      rw [hv, hvs]
      rfl

/-- The reviver undoes the replacer exactly if it takes no plain object for a byte array. -/
theorem revive_replacer (v : HostValue ν) :
    revive (v.bind replacer) = some v ↔ ∀ ms, v.Contains ms → markedBase64 ms = none := by
  induction v using JsonTree.inductOn with
  | leaf a =>
    have hcontains : ∀ ms, (JsonTree.leaf a).Contains ms → markedBase64 ms = none :=
      fun ms h => nomatch h
    cases a with
    | scalar s => exact iff_of_true rfl hcontains
    | bytes b => exact iff_of_true (revive_encodedBytes b) hcontains
  | array es ih =>
    rw [JsonTree.bind, revive]
    constructor
    · intro h ms hms
      obtain ⟨vs, hvs, heq⟩ := map_eq_some_iff.mp h
      obtain rfl := JsonTree.array.inj heq
      cases hms with
      | element he hms => exact (ih _ he).mp ((reviveElements_bind vs).mp hvs _ he) _ hms
    · intro h
      have hback : ∀ e ∈ es, revive (e.bind replacer) = some e := fun e he =>
        (ih e he).mpr fun ms hms => h ms (.element he hms)
      rw [(reviveElements_bind es).mpr hback]
      rfl
  | object ms ih =>
    rw [JsonTree.bind, revive]
    constructor
    · intro h
      obtain ⟨vs, hvs, hrevived⟩ := bind_eq_some_iff.mp h
      have hmarked : markedBase64 vs = none ∧ vs = ms := by
        unfold reviver at hrevived
        split at hrevived
        · exact ⟨by assumption, JsonTree.object.inj (some.inj hrevived)⟩
        · obtain ⟨bytes, -, hbytes⟩ := map_eq_some_iff.mp hrevived
          cases hbytes
      obtain ⟨hnone, rfl⟩ := hmarked
      intro ms' hms'
      cases hms' with
      | here => exact hnone
      | member hm hms => exact (ih _ hm).mp ((reviveMembers_bind vs).mp hvs _ hm) _ hms
    · intro h
      have hback : ∀ m ∈ ms, revive (m.2.bind replacer) = some m.2 := fun m hm =>
        (ih m hm).mpr fun ms' hms' => h ms' (.member hm hms')
      rw [(reviveMembers_bind ms).mpr hback, bind_some]
      exact reviver_eq_object.mpr (h ms (.here ms))

/-- What the replacer puts in place of byte arrays has its properties in order, too. -/
theorem wellFormed_replacer {v : HostValue ν} (h : WellFormed v) :
    WellFormed (v.bind replacer) := by
  induction v using JsonTree.inductOn with
  | leaf a =>
    intro ms hms
    cases a with
    | scalar s => exact nomatch hms
    | bytes b =>
      cases hms with
      | here => exact ⟨by simp [encodedBytes]; decide, rfl⟩
      | member hm hms =>
        simp only [encodedBytes, mem_cons, not_mem_nil, or_false] at hm
        rcases hm with rfl | rfl
        · exact nomatch hms
        · exact nomatch hms
  | array es ih =>
    intro ms hms
    rw [JsonTree.bind, JsonTree.bindElements_eq_map] at hms
    cases hms with
    | element he hms =>
      obtain ⟨e, hmem, rfl⟩ := mem_map.mp he
      exact ih e hmem (fun ms' hms' => h ms' (.element hmem hms')) ms hms
  | object ms ih =>
    intro ms' hms'
    rw [JsonTree.bind, JsonTree.bindMembers_eq_map] at hms'
    cases hms' with
    | here => exact (h ms (.here ms)).map fun m => m.2.bind replacer
    | member hm hms =>
      obtain ⟨m, hmem, rfl⟩ := mem_map.mp hm
      exact ih m hmem (fun ms'' hms'' => h ms'' (.member hmem hms'')) ms' hms

/-- Between the replacer and the reviver the text changes nothing. -/
theorem decode_encode (F : NumberFormat ν) (v : RepresentableValue ν) :
    decode F (encode F v.value) = revive (v.value.bind replacer) := by
  have henvelope : WellFormed (JsonTree.object [(valueKey, v.value)]) := by
    intro ms hms
    cases hms with
    | here => exact ⟨by simp, rfl⟩
    | member hm hms =>
      obtain rfl := mem_singleton.mp hm
      exact v.wellFormed ms hms
  have htext : decodeUtf8 (encode F v.value) =
      print F ((JsonTree.object [(valueKey, v.value)]).bind replacer) := by
    apply decodeUtf8_encodeUtf8 (paired_print F _)
    simp [JsonTree.bind, JsonTree.bindMembers, print]
  unfold decode
  rw [htext, parse_print F _ (wellFormed_replacer henvelope), bind_some, JsonTree.bind,
    JsonTree.bindMembers, JsonTree.bindMembers, revive, reviveMembers, reviveMembers]
  cases hrevive : revive (v.value.bind replacer) with
  | none => rfl
  | some w =>
    have hnone : markedBase64 [(valueKey, w)] = none := by
      simp [markedBase64, OrderedMap.get, show valueKey ≠ typeKey by decide]
    rw [bind_some, map_some, bind_some, reviver_eq_object.mpr hnone, bind_some]
    exact if_pos rfl

/-- A value comes back from its encoding exactly if none of its plain objects, at any depth, has
the properties by which the reviver knows byte arrays. -/
theorem decode_encode_iff (F : NumberFormat ν) (v : RepresentableValue ν) :
    decode F (encode F v.value) = some v.value ↔
      ∀ ms, v.value.Contains ms → markedBase64 ms = none := by
  rw [decode_encode]
  exact revive_replacer v.value

end Codec

def digitText (d : Fin 10) : List UInt16 := [UInt16.ofNat (0x30 + d.val)]

def digitValue : List UInt16 → Option (Fin 10)
  | [u] =>
    if h : 0x30 ≤ u.toNat ∧ u.toNat < 0x3A then some ⟨u.toNat - 0x30, by omega⟩ else none
  | _ => none

theorem digitText_ne (d : Fin 10) : digitText d ≠ [] := cons_ne_nil _ _

theorem digitText_units (d : Fin 10) (u : UInt16) (hu : u ∈ digitText d) :
    isNumberUnit u = true := by
  have hdigits : ∀ d : Fin 10, isNumberUnit (UInt16.ofNat (0x30 + d.val)) = true := by decide
  rw [mem_singleton.mp hu]
  exact hdigits d

theorem digitValue_text (d : Fin 10) : digitValue (digitText d) = some d := by
  have hd := d.isLt
  have hunit : (UInt16.ofNat (0x30 + d.val)).toNat = 0x30 + d.val := by
    rw [UInt16.toNat_ofNat']
    omega
  have hrange : 0x30 ≤ (UInt16.ofNat (0x30 + d.val)).toNat ∧
      (UInt16.ofNat (0x30 + d.val)).toNat < 0x3A := by
    rw [hunit]
    omega
  unfold digitValue digitText
  dsimp only
  rw [dif_pos hrange]
  exact congrArg some (Fin.ext (by dsimp only; omega))

def digitFormat : NumberFormat (Fin 10) :=
  ⟨digitText, digitValue, digitText_ne, digitText_units, digitValue_text⟩

def markedObject : RepresentableValue (Fin 10) where
  value := .object [(typeKey, .leaf (.scalar (.string bytesType))),
    (base64Key, .leaf (.scalar (.string (asciiUnits "AAAA"))))]
  wellFormed := by
    intro ms hms
    cases hms with
    | here => exact ⟨by decide, rfl⟩
    | member hm hms =>
      simp only [mem_cons, not_mem_nil, or_false] at hm
      rcases hm with rfl | rfl
      · exact nomatch hms
      · exact nomatch hms

/-- The object comes back as three bytes. -/
theorem markedObject_becomes_bytes :
    decode digitFormat (encode digitFormat markedObject.value) = some (.leaf (.bytes [0, 0, 0])) ∧
      decode digitFormat (encode digitFormat markedObject.value) ≠ some markedObject.value := by
  have hbytes : bytesFromBase64 (asciiUnits "AAAA") = some [0, 0, 0] := by decide
  have hmarked : markedBase64 [(typeKey, .leaf (.scalar (.string bytesType))), (base64Key,
      (.leaf (.scalar (.string (asciiUnits "AAAA"))) : HostValue (Fin 10)))] =
      some (asciiUnits "AAAA") := by
    simp [markedBase64, OrderedMap.get, show typeKey ≠ base64Key by decide]
  have hrevive : revive (markedObject.value.bind replacer) =
      reviver [(typeKey, .leaf (.scalar (.string bytesType))), (base64Key,
        (.leaf (.scalar (.string (asciiUnits "AAAA"))) : HostValue (Fin 10)))] := by
    simp only [markedObject, JsonTree.bind, JsonTree.bindMembers, replacer, revive, reviveMembers,
      bind_some, map_some]
  have hdecode : decode digitFormat (encode digitFormat markedObject.value) =
      some (.leaf (.bytes [0, 0, 0])) := by
    rw [decode_encode, hrevive, reviver, hmarked]
    dsimp only
    rw [hbytes]
    rfl
  refine ⟨hdecode, ?_⟩
  rw [hdecode]
  intro h
  cases h

end TraceJvm
