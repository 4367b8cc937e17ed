import EvmState.Rpc

/-!
# The header codec

The encoder of RPC headers and the verifier of encoded headers are written
apart. What the one writes the other accepts, for every combination of present
and absent fields, and the verifier accepts no encoding that is not the list
of its own fields.
-/

set_option autoImplicit false

namespace EvmState.HeaderCodec
open EvmState.Hex EvmState.Fallible EvmState.OrderedMap EvmState.Params EvmState.Encoding
open EvmState.Proof EvmState.Header

def hashAt (value : Json) (name : String) : Except String Bytes := do
  let text ← string value name
  fixed 32 text

def numberAt (header : Json) (name : String) : Except String ℕ := do
  let text ← string header name
  quantity text 64

/-- A summary that repeats what an RPC header says. -/
structure SummaryOf (header summary : Json) : Prop where
  hash : hashAt summary "hash" = hashAt header "hash"
  parentHash : hashAt summary "parent_hash" = hashAt header "parentHash"
  stateRoot : hashAt summary "state_root" = hashAt header "stateRoot"
  number : ∀ n, numberAt header "number" = .ok n → (summary.index "number").asU64 = some n
  timestamp : ∀ n, numberAt header "timestamp" = .ok n → (summary.index "timestamp").asU64 = some n

def Obeys (f : Field) (i : ℕ) (v : Bytes) : Prop :=
  (∀ bits ∈ f.bits, v.head? ≠ some 0 ∧ v.length ≤ bits/8) ∧
    ∀ n ∈ f.length, v.length = n ∨ (required ≤ i ∧ v = [])

theorem checkField_ok {f : Field × ℕ} {v : Bytes} :
    checkField f v = .ok () ↔ Obeys f.1 f.2 v := by
  simp only [checkField, bind_ok, ensure_ok, Obeys]
  exact ⟨fun ⟨_,hb,hl⟩ => ⟨hb,hl⟩,fun ⟨hb,hl⟩ => ⟨(),hb,hl⟩⟩

theorem decodeFields_encode {room : ℕ} {fields : List Bytes} (hn : fields.length ≤ room)
    (hb : ∀ b ∈ fields, b.length < 2^64) :
    decodeFields room (fields.flatMap Rlp.encode) = .ok fields := by
  induction fields generalizing room with
  | nil => simp [decodeFields]
  | cons b fields ih =>
    cases room with
    | zero => simp at hn
    | succ room =>
      have hdecode := Rlp.decode_encode (fields.flatMap Rlp.encode) (hb b (by simp))
      have hne : Rlp.encode b ++ fields.flatMap Rlp.encode ≠ [] := by
        intro hnil
        rw [hnil] at hdecode
        cases hdecode
      rw [List.flatMap_cons]
      rw [decodeFields]
      · refine bind_ok.mpr ⟨_,context_ok.mpr hdecode,bind_ok.mpr ⟨fields,?_,rfl⟩⟩
        exact ih (by simpa using hn) (fun c hc => hb c (List.mem_cons_of_mem _ hc))
      · exact hne

theorem decodeFields_ok {room : ℕ} {payload : Bytes} {fields : List Bytes}
    (h : decodeFields room payload = .ok fields) :
    fields.length ≤ room ∧ payload = fields.flatMap Rlp.encode := by
  induction room generalizing payload fields with
  | zero =>
    cases payload with
    | nil =>
      obtain rfl := Except.ok.inj h
      exact ⟨le_rfl,rfl⟩
    | cons b payload =>
      obtain ⟨_,-,h⟩ := bind_ok.mp h
      cases h
  | succ room ih =>
    cases payload with
    | nil =>
      obtain rfl := Except.ok.inj h
      exact ⟨Nat.zero_le _,rfl⟩
    | cons b payload =>
      obtain ⟨⟨field,rest⟩,hd,h⟩ := bind_ok.mp h
      obtain ⟨more,hm,h⟩ := bind_ok.mp h
      obtain rfl := pure_ok.mp h
      obtain ⟨hlen,hrest⟩ := ih hm
      refine ⟨Nat.succ_le_succ hlen,?_⟩
      rw [Rlp.decodeBytes_canonical (context_ok.mp hd), List.flatMap_cons, ← hrest]
      rfl

theorem rlpList_encode (fields : List Bytes) : rlpList (fields.map Rlp.encode) =
    Rlp.item true (fields.flatMap Rlp.encode) := by
  rw [rlpList, Rlp.item, if_pos rfl, List.flatMap_def, List.length_flatten]

/-- An accepted list of fields: enough of them, each by its rule. -/
structure Wellformed (fields : List Bytes) : Prop where
  least : required ≤ fields.length
  most : fields.length ≤ FIELDS.length
  obeys : ∀ (i : ℕ) (f : Field) (v : Bytes), FIELDS[i]? = some f → fields[i]? = some v → Obeys f i v

theorem checkFields_ok {fields : List Bytes} :
    (FIELDS.zipIdx.zip fields).forM (fun e => checkField e.1 e.2) = .ok () ↔
      ∀ (i : ℕ) (f : Field) (v : Bytes), FIELDS[i]? = some f → fields[i]? = some v → Obeys f i v := by
  rw [forM_ok]
  constructor
  · intro h i f v hf hv
    have hmem : ((f,i),v) ∈ FIELDS.zipIdx.zip fields := by
      refine List.mem_of_getElem? (i := i) ?_
      rw [List.getElem?_zip_eq_some]
      exact ⟨by rw [List.getElem?_zipIdx, hf]; simp,hv⟩
    exact checkField_ok.mp (h _ hmem)
  · rintro h ⟨⟨f,j⟩,v⟩ hmem
    obtain ⟨i,hi⟩ := List.getElem?_of_mem hmem
    obtain ⟨hf,hv⟩ := List.getElem?_zip_eq_some.mp hi
    obtain ⟨g,hg,heq⟩ := Option.map_eq_some_iff.mp (List.getElem?_zipIdx .. ▸ hf)
    obtain ⟨rfl,rfl⟩ : g = f ∧ 0+i = j := by simpa using heq
    rw [Nat.zero_add]
    exact checkField_ok.mpr (by simpa using h i g v hg hv)

/-- The verifier reads the list of its own fields and no other encoding. -/
theorem headerFields_ok {encoded : Bytes} {fields : List Bytes} :
    headerFields encoded = .ok fields ↔ encoded.length ≤ 104448 ∧
      encoded = rlpList (fields.map Rlp.encode) ∧ Wellformed fields := by
  rw [rlpList_encode]
  constructor
  · intro h
    obtain ⟨_,hlen,h⟩ := bind_ok.mp h
    obtain ⟨⟨payload,rest⟩,hd,h⟩ := bind_ok.mp h
    obtain ⟨_,hrest,h⟩ := bind_ok.mp h
    obtain ⟨l,hl,h⟩ := bind_ok.mp h
    obtain ⟨_,hreq,h⟩ := bind_ok.mp h
    obtain ⟨_,hcheck,h⟩ := bind_ok.mp h
    obtain rfl := pure_ok.mp h
    obtain rfl := ensure_ok.mp hrest
    obtain ⟨hmost,hpayload⟩ := decodeFields_ok hl
    refine ⟨ensure_ok.mp hlen,?_,ensure_ok.mp hreq,hmost,checkFields_ok.mp hcheck⟩
    rw [Rlp.decodeBytes_canonical (context_ok.mp hd), List.append_nil, hpayload]
  · rintro ⟨hlen,hencoded,hwell⟩
    have hpayload : (fields.flatMap Rlp.encode).length ≤ encoded.length := by
      rw [hencoded, Rlp.item, if_pos rfl, List.length_append]
      omega
    have hdecode : Rlp.decodeBytes encoded true = some (fields.flatMap Rlp.encode,[]) := by
      have := @Rlp.decode_header true (fields.flatMap Rlp.encode) [] (by omega) (by simp)
      rwa [List.append_nil, ← Rlp.item_eq (by simp), ← hencoded] at this
    have hsmall : ∀ b ∈ fields, b.length < 2^64 := by
      intro b hb
      have h1 := Rlp.length_le_encode b
      have h2 : (Rlp.encode b).length ≤ (fields.flatMap Rlp.encode).length :=
        (List.sublist_flatten_of_mem (List.mem_map_of_mem hb)).length_le
      omega
    exact bind_ok.mpr ⟨(),ensure_ok.mpr hlen,bind_ok.mpr ⟨_,context_ok.mpr hdecode,
      bind_ok.mpr ⟨(),ensure_ok.mpr rfl,bind_ok.mpr ⟨fields,decodeFields_encode hwell.most hsmall,
        bind_ok.mpr ⟨(),ensure_ok.mpr hwell.least,bind_ok.mpr ⟨(),checkFields_ok.mpr hwell.obeys,
          rfl⟩⟩⟩⟩⟩⟩

inductive Holds (header : Json) (f : Field) (i : ℕ) (v : Bytes) : Prop
  | absent (hnull : header.index f.name = .null) (hi : required ≤ i) (hv : v = [])
  | quantity (text : String) (bits n : ℕ) (hb : f.bits = some bits)
      (ht : string header f.name = .ok text) (hn : quantity text bits = .ok n)
      (hv : v = Rlp.toBytes n)
  | bytes (text : String) (hb : f.bits = none) (ht : string header f.name = .ok text)
      (hu : unhex text = .ok v) (hl : ∀ n ∈ f.length, v.length = n)

theorem encodeField_ok {header : Json} {f : Field} {i : ℕ} {b : Bytes}
    (h : encodeField header (f,i) = .ok b) : ∃ v, b = Rlp.encode v ∧ Holds header f i v := by
  unfold encodeField at h
  dsimp only at h
  split_ifs at h with hnull
  · obtain ⟨_,hi,h⟩ := bind_ok.mp h
    exact ⟨[],(pure_ok.mp h).symm,.absent hnull (ensure_ok.mp hi) rfl⟩
  · cases hb : f.bits with
    | some bits =>
      rw [hb] at h
      obtain ⟨text,ht,h⟩ := bind_ok.mp h
      obtain ⟨n,hn,h⟩ := bind_ok.mp h
      exact ⟨Rlp.toBytes n,(pure_ok.mp h).symm,.quantity text bits n hb ht hn rfl⟩
    | none =>
      rw [hb] at h
      obtain ⟨text,ht,h⟩ := bind_ok.mp h
      obtain ⟨v,hu,h⟩ := bind_ok.mp h
      obtain ⟨_,hl,h⟩ := bind_ok.mp h
      exact ⟨v,(pure_ok.mp h).symm,.bytes text hb ht hu (ensure_ok.mp hl)⟩

theorem integer_fields : ∀ f ∈ FIELDS, ∀ bits ∈ f.bits, bits%8 = 0 ∧ f.length = none := by decide

theorem Holds.obeys {header : Json} {f : Field} {i : ℕ} {v : Bytes} (hf : f ∈ FIELDS)
    (h : Holds header f i v) : Obeys f i v := by
  cases h with
  | absent hnull hi hv =>
    subst hv
    exact ⟨fun bits _ => ⟨by simp,Nat.zero_le _⟩,fun n _ => .inr ⟨hi,rfl⟩⟩
  | quantity text bits n hb ht hn hv =>
    subst hv
    obtain ⟨height,hnone⟩ := integer_fields f hf bits hb
    refine ⟨fun b hb' => ?_,fun n hn => ?_⟩
    · obtain rfl : bits = b := Option.some.inj (hb.symm.trans hb')
      refine ⟨Rlp.toBytes_head n,Rlp.toBytes_length.mpr ?_⟩
      have hbits : 256^(bits/8) = 2^bits := by
        rw [show (256 : ℕ) = 2^8 by norm_num, ← Nat.pow_mul]
        congr 1
        omega
      rw [hbits]
      exact quantity_lt hn
    · rw [hnone] at hn
      cases hn
  | bytes text hb ht hu hl =>
    refine ⟨fun bits hb' => ?_,fun n hn => .inl (hl n hn)⟩
    rw [hb] at hb'
    cases hb'

theorem lastField_bounds (header : Json) :
    required ≤ lastField header+1 ∧ lastField header < FIELDS.length := by
  let l := (FIELDS.zipIdx.filter
    (fun f => f.2 < required || header.index f.1.name ≠ .null)).map Prod.snd
  have hlast : 14 ∈ l := by
    refine List.mem_map.mpr ⟨(⟨"nonce",some 8,none⟩,14),List.mem_filter.mpr ⟨by decide,?_⟩,rfl⟩
    rw [Bool.or_eq_true]
    exact .inl (by decide)
  have hlt : ∀ i ∈ l, i < FIELDS.length := by
    intro i hi
    obtain ⟨⟨f,j⟩,hf,rfl⟩ := List.mem_map.mp hi
    have hmem : (f,j) ∈ FIELDS.zipIdx := (List.mem_filter.mp hf).1
    have hlt := List.snd_lt_of_mem_zipIdx hmem
    exact hlt
  have hdef : lastField header = l.max?.getD 0 := rfl
  cases hm : l.max? with
  | none =>
    rw [List.max?_eq_none_iff] at hm
    rw [hm] at hlast
    cases hlast
  | some m =>
    obtain ⟨hmem,hmax⟩ := List.max?_eq_some_iff.mp hm
    have := hmax 14 hlast
    have := hlt m hmem
    rw [hdef, hm, Option.getD_some, required]
    omega

structure Written (header : Json) (values : List Bytes) : Prop where
  wellformed : Wellformed values
  holds : ∀ (i : ℕ) (f : Field) (v : Bytes), FIELDS[i]? = some f → values[i]? = some v →
    Holds header f i v

theorem encodeFields_ok {header : Json} {fields : List Bytes}
    (h : (FIELDS.zipIdx.take (lastField header+1)).mapM (encodeField header) = .ok fields) :
    ∃ values, fields = values.map Rlp.encode ∧ Written header values := by
  obtain ⟨hleast,hlast⟩ := lastField_bounds header
  rw [mapM_ok] at h
  obtain ⟨values,hvalues,rfl⟩ : ∃ values : List Bytes,
      List.Forall₂ (fun f v => Holds header f.1 f.2 v)
        (FIELDS.zipIdx.take (lastField header+1)) values ∧ fields = values.map Rlp.encode := by
    generalize FIELDS.zipIdx.take (lastField header+1) = l at h
    clear hleast hlast
    induction h with
    | nil => exact ⟨[],.nil,rfl⟩
    | @cons f b l fields hb _ ih =>
      obtain ⟨v,rfl,hv⟩ := encodeField_ok hb
      obtain ⟨values,hvalues,rfl⟩ := ih
      exact ⟨v::values,.cons hv hvalues,rfl⟩
  have hlength : values.length = lastField header+1 := by
    rw [← hvalues.length_eq, List.length_take, List.length_zipIdx]
    omega
  have hholds : ∀ (i : ℕ) (f : Field) (v : Bytes), FIELDS[i]? = some f → values[i]? = some v →
      Holds header f i v := by
    intro i f v hf hv
    have hi := (List.getElem?_eq_some_iff.mp hv).1
    have hget : (FIELDS.zipIdx.take (lastField header+1))[i]? = some (f,i) := by
      rw [List.getElem?_take_of_lt (by omega), List.getElem?_zipIdx, hf]
      simp
    have hzip : ((f,i),v) ∈ (FIELDS.zipIdx.take (lastField header+1)).zip values :=
      List.mem_of_getElem? (List.getElem?_zip_eq_some.mpr ⟨hget,hv⟩)
    exact List.forall₂_zip hvalues hzip
  refine ⟨values,rfl,⟨by omega,by omega,fun i f v hf hv => ?_⟩,hholds⟩
  exact (hholds i f v hf hv).obeys (List.mem_of_getElem? hf)

section Codec
variable {alloy : Alloy}

theorem encodeRpcHeader_ok {header : Json} {text : String}
    (h : encodeRpcHeader alloy header = .ok text) : ∃ values, Written header values ∧
      text = hex (rlpList (values.map Rlp.encode)) ∧
      hashAt header "hash" = .ok (alloy.keccak256 (rlpList (values.map Rlp.encode))) := by
  obtain ⟨fields,hf,h⟩ := bind_ok.mp h
  obtain ⟨values,rfl,hw⟩ := encodeFields_ok hf
  obtain ⟨t,ht,h⟩ := bind_ok.mp h
  obtain ⟨hash,hh,h⟩ := bind_ok.mp h
  obtain ⟨_,heq,h⟩ := bind_ok.mp h
  refine ⟨values,hw,(pure_ok.mp h).symm,bind_ok.mpr ⟨t,ht,?_⟩⟩
  rw [hh, ← ensure_ok.mp heq]

theorem Written.at {header : Json} {values : List Bytes} (h : Written header values) {i : ℕ}
    {f : Field} (hi : i < required) (hf : FIELDS[i]? = some f) :
    ∃ v, values[i]? = some v ∧ Holds header f i v := by
  have hlt : i < values.length := lt_of_lt_of_le hi h.wellformed.least
  exact ⟨values[i],List.getElem?_eq_getElem hlt,h.holds i f _ hf (List.getElem?_eq_getElem hlt)⟩

theorem Written.hash {header : Json} {values : List Bytes} (h : Written header values) {i : ℕ}
    {name : String} (hi : i < required) (hf : FIELDS[i]? = some ⟨name,some 32,none⟩) :
    ∃ v, values[i]? = some v ∧ hashAt header name = .ok v := by
  obtain ⟨v,hv,hh⟩ := h.at hi hf
  refine ⟨v,hv,?_⟩
  cases hh with
  | absent _ hle _ => omega
  | quantity _ _ _ hb _ _ _ => cases hb
  | bytes text _ ht hu hl => exact bind_ok.mpr ⟨text,ht,fixed_ok.mpr ⟨hu,hl 32 rfl⟩⟩

theorem Written.number {header : Json} {values : List Bytes} (h : Written header values) {i : ℕ}
    {name : String} (hi : i < required) (hf : FIELDS[i]? = some ⟨name,none,some 64⟩) :
    ∃ n, values[i]? = some (Rlp.toBytes n) ∧ numberAt header name = .ok n := by
  obtain ⟨v,hv,hh⟩ := h.at hi hf
  cases hh with
  | absent _ hle _ => omega
  | quantity text bits n hb ht hn hv' =>
    obtain rfl := Option.some.inj hb
    exact ⟨n,hv' ▸ hv,bind_ok.mpr ⟨text,ht,hn⟩⟩
  | bytes _ hb _ _ _ => cases hb

theorem hashAt_ok {value : Json} {name : String} {b : Bytes} :
    hashAt value name = .ok b ↔ ∃ text, string value name = .ok text ∧ fixed 32 text = .ok b :=
  bind_ok

theorem encoded_accepted {header : Json} {text : String} {encoded : Bytes}
    (h : encodeRpcHeader alloy header = .ok text) (hu : unhex text = .ok encoded)
    (hlen : encoded.length ≤ 104448) {summary : Json} (hs : SummaryOf header summary) :
    verifyHeader alloy text summary none = .ok (alloy.keccak256 encoded) := by
  obtain ⟨values,hw,rfl,hhash⟩ := encodeRpcHeader_ok h
  obtain rfl := Except.ok.inj ((unhex_hex _).symm.trans hu)
  obtain ⟨parent,hp0,hparent⟩ := hw.hash (show 0 < required by decide) rfl
  obtain ⟨root,hr0,hroot⟩ := hw.hash (show 3 < required by decide) rfl
  obtain ⟨number,hn0,hnumber⟩ := hw.number (show 8 < required by decide) rfl
  obtain ⟨time,ht0,htime⟩ := hw.number (show 11 < required by decide) rfl
  have hencodes : Encodes alloy (rlpList (values.map Rlp.encode)) summary := by
    refine ⟨hashAt_ok.mp (hs.hash.trans hhash),values,headerFields_ok.mpr ⟨hlen,rfl,hw.wellformed⟩,
      ?_,?_,?_,?_⟩
    · obtain ⟨t,ht,hf⟩ := hashAt_ok.mp (hs.parentHash.trans hparent)
      exact ⟨t,parent,ht,hf,hp0⟩
    · obtain ⟨t,ht,hf⟩ := hashAt_ok.mp (hs.stateRoot.trans hroot)
      exact ⟨t,root,ht,hf,hr0⟩
    · exact ⟨number,hs.number number hnumber,by rw [hn0, Option.map_some, Rlp.ofBytes_toBytes]⟩
    · exact ⟨time,hs.timestamp time htime,by rw [ht0, Option.map_some, Rlp.ofBytes_toBytes]⟩
  exact verifyHeader_ok.mpr ⟨_,hu,rfl,hencodes,by simp⟩

theorem summary_taken {header : Json} {text : String} (h : encodeRpcHeader alloy header = .ok text) :
    ∃ number s, numberAt header "number" = .ok number ∧ Rpc.summary header number = .ok s ∧
      SummaryOf header s := by
  obtain ⟨values,hw,-,hhash⟩ := encodeRpcHeader_ok h
  obtain ⟨parent,-,hparent⟩ := hw.hash (show 0 < required by decide) rfl
  obtain ⟨root,-,hroot⟩ := hw.hash (show 3 < required by decide) rfl
  obtain ⟨number,-,hnumber⟩ := hw.number (show 8 < required by decide) rfl
  obtain ⟨time,-,htime⟩ := hw.number (show 11 < required by decide) rfl
  obtain ⟨hashText,hht,hhf⟩ := hashAt_ok.mp hhash
  obtain ⟨parentText,hpt,hpf⟩ := hashAt_ok.mp hparent
  obtain ⟨rootText,hrt,hrf⟩ := hashAt_ok.mp hroot
  obtain ⟨timeText,htt,htq⟩ := bind_ok.mp htime
  let pairs : List (String × Json) := [("number",.ofNat number),("hash",.str (lower hashText)),
    ("parent_hash",.str (lower parentText)),("state_root",.str (lower rootText)),
    ("timestamp",.ofNat time)]
  have hget : ∀ name, (Json.ofPairs pairs).get? name = lookup name pairs :=
    Json.get?_ofPairs (l := pairs) (by simp [pairs])
  have hnum : (do let t ← string header "number"; quantity t 64) = Except.ok number := hnumber
  obtain ⟨_,-,hnq⟩ := bind_ok.mp hnum
  refine ⟨number,.ofPairs pairs,hnumber,?_,?_,?_,?_,fun n hn => ?_,fun n hn => ?_⟩
  · exact bind_ok.mpr ⟨_,hht,bind_ok.mpr ⟨_,hpt,bind_ok.mpr ⟨_,hrt,bind_ok.mpr ⟨_,htt,
      bind_ok.mpr ⟨_,htq,rfl⟩⟩⟩⟩⟩
  · rw [hhash]
    exact hashAt_ok.mpr ⟨_,string_ok (hget "hash"),fixed_lower hhf⟩
  · rw [hparent]
    exact hashAt_ok.mpr ⟨_,string_ok (hget "parent_hash"),fixed_lower hpf⟩
  · rw [hroot]
    exact hashAt_ok.mpr ⟨_,string_ok (hget "state_root"),fixed_lower hrf⟩
  · obtain rfl := Except.ok.inj (hnumber.symm.trans hn)
    rw [Json.index, hget]
    exact Json.asU64_ofNat (quantity_lt hnq)
  · obtain rfl := Except.ok.inj (htime.symm.trans hn)
    rw [Json.index, hget]
    exact Json.asU64_ofNat (quantity_lt htq)

/-- Accepted summaries of one hash agree, unless their encodings collide. -/
theorem accepted_agree {text text' : String} {s s' : Json} {expected expected' : Option String}
    {digest digest' encoded encoded' : Bytes} (hu : unhex text = .ok encoded)
    (hu' : unhex text' = .ok encoded')
    (hcollide : alloy.keccak256 encoded = alloy.keccak256 encoded' → encoded = encoded')
    (h : verifyHeader alloy text s expected = .ok digest)
    (h' : verifyHeader alloy text' s' expected' = .ok digest')
    (hhash : hashAt s "hash" = hashAt s' "hash") :
    (s.index "number").asU64 = (s'.index "number").asU64 ∧
      hashAt s "parent_hash" = hashAt s' "parent_hash" ∧
      hashAt s "state_root" = hashAt s' "state_root" ∧
      (s.index "timestamp").asU64 = (s'.index "timestamp").asU64 := by
  obtain ⟨e,he,-,hs,-⟩ := verifyHeader_ok.mp h
  obtain ⟨e',he',-,hs',-⟩ := verifyHeader_ok.mp h'
  obtain rfl := Except.ok.inj (hu.symm.trans he)
  obtain rfl := Except.ok.inj (hu'.symm.trans he')
  have hdigest := hashAt_ok.mpr hs.hash
  rw [hhash, hashAt_ok.mpr hs'.hash] at hdigest
  obtain rfl := hcollide (Except.ok.inj hdigest).symm
  obtain ⟨fields,hf,⟨t,p,ht,hp,hp0⟩,⟨u,r,hu,hr,hr0⟩,⟨n,hn,hn0⟩,⟨m,hm,hm0⟩⟩ := hs.fields
  obtain ⟨fields',hf',⟨t',p',ht',hp',hp0'⟩,⟨u',r',hu',hr',hr0'⟩,⟨n',hn',hn0'⟩,⟨m',hm',hm0'⟩⟩ :=
    hs'.fields
  obtain rfl := Except.ok.inj (hf.symm.trans hf')
  obtain rfl := Option.some.inj (hp0.symm.trans hp0')
  obtain rfl := Option.some.inj (hr0.symm.trans hr0')
  obtain rfl := Option.some.inj (hn0.symm.trans hn0')
  obtain rfl := Option.some.inj (hm0.symm.trans hm0')
  refine ⟨hn.trans hn'.symm,?_,?_,hm.trans hm'.symm⟩
  · rw [hashAt_ok.mpr ⟨t,ht,hp⟩, hashAt_ok.mpr ⟨t',ht',hp'⟩]
  · rw [hashAt_ok.mpr ⟨u,hu,hr⟩, hashAt_ok.mpr ⟨u',hu',hr'⟩]

/-- Encoder and verifier match: what is written is accepted with its summary,
what is accepted is the encoding of fields that obey the table, and the hash
of an accepted header settles its summary. -/
theorem header_codec (alloy : Alloy) :
    (∀ header text encoded, encodeRpcHeader alloy header = .ok text → unhex text = .ok encoded →
      encoded.length ≤ 104448 →
      (∀ summary, SummaryOf header summary →
        verifyHeader alloy text summary none = .ok (alloy.keccak256 encoded)) ∧
      ∃ number s, numberAt header "number" = .ok number ∧ Rpc.summary header number = .ok s ∧
        SummaryOf header s) ∧
    (∀ text summary expected digest, verifyHeader alloy text summary expected = .ok digest →
      ∃ fields : List Bytes, unhex text = .ok (rlpList (fields.map Rlp.encode)) ∧ 15 ≤ fields.length ∧
        fields.length ≤ 23 ∧ ∀ (i : ℕ) (f : Field) (v : Bytes), FIELDS[i]? = some f →
          fields[i]? = some v → Obeys f i v) ∧
    (∀ text s expected digest encoded text' s' expected' digest' encoded',
      unhex text = .ok encoded → unhex text' = .ok encoded' →
      (alloy.keccak256 encoded = alloy.keccak256 encoded' → encoded = encoded') →
      verifyHeader alloy text s expected = .ok digest →
      verifyHeader alloy text' s' expected' = .ok digest' →
      hashAt s "hash" = hashAt s' "hash" →
      (s.index "number").asU64 = (s'.index "number").asU64 ∧
        hashAt s "parent_hash" = hashAt s' "parent_hash" ∧
        hashAt s "state_root" = hashAt s' "state_root" ∧
        (s.index "timestamp").asU64 = (s'.index "timestamp").asU64) := by
  refine ⟨fun header text encoded h hu hlen => ⟨fun summary hs => encoded_accepted h hu hlen hs,
    summary_taken h⟩,fun text summary expected digest h => ?_,?_⟩
  · obtain ⟨encoded,hu,-,hs,-⟩ := verifyHeader_ok.mp h
    obtain ⟨fields,hf,-⟩ := hs.fields
    obtain ⟨-,rfl,hw⟩ := headerFields_ok.mp hf
    exact ⟨fields,hu,hw.least,hw.most,hw.obeys⟩
  · intro text s expected digest encoded text' s' expected' digest' encoded' hu hu' hc h h' hhash
    exact accepted_agree hu hu' hc h h' hhash

end Codec

theorem header_codec_sample : ∃ number s, numberAt Rpc.sampleHeader "number" = .ok number ∧
    Rpc.summary Rpc.sampleHeader number = .ok s ∧
    verifyHeader Rpc.sampleChain (hex Rpc.sampleEncoded) s none =
      .ok (Rpc.sampleChain.keccak256 Rpc.sampleEncoded) := by
  obtain ⟨hall,number,s,hn,hs,hof⟩ := (header_codec Rpc.sampleChain).1 _ _ _
    Rpc.sampleHeader_encoded (unhex_hex _) (by decide +kernel)
  exact ⟨number,s,hn,hs,hall s hof⟩

end EvmState.HeaderCodec
