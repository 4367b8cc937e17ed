import EvmState.Transfer

/-!
# Which checkpoints can be exported

An export asks of its files what an import asks of its tables. A checkpoint
whose stored rows pass the second verification is exported, page after page,
into files that pass the first one, as long as the format's limits hold.
-/

set_option autoImplicit false

namespace EvmState.Exportable
open EvmState.Hex EvmState.Fallible EvmState.OrderedMap EvmState.Store EvmState.Encoding
open EvmState.Params EvmState.Bootstrap EvmState.Proof EvmState.Header EvmState.Build EvmState.Crash
open EvmState.Text EvmState.Lines EvmState.TextLines EvmState.PrettyJson EvmState.Reader
open EvmState.Publication
open EvmState.Portable EvmState.Importer EvmState.Export EvmState.RoundTrip EvmState.Transfer

def pageDigits (index : ℕ) : List Char := (Nat.toDigits 10 index).leftpad 6 '0'

theorem pageDigits_eq (index : ℕ) : pageDigits index =
    List.replicate (6-(Nat.toDigits 10 index).length) '0' ++ Nat.toDigits 10 index := rfl

theorem pageDigits_number (index : ℕ) : Nat.ofDigitChars 10 (pageDigits index) 0 = index := by
  have hzeros : ∀ n, Nat.ofDigitChars 10 (List.replicate n '0') 0 = 0 := by
    intro n
    induction n with
    | zero => rfl
    | succ n ih =>
      rw [List.replicate_succ, Nat.ofDigitChars_cons]
      exact ih
  rw [pageDigits_eq, Nat.ofDigitChars_append, hzeros, Nat.ofDigitChars_ten_toDigits]

theorem pageName_numbered (index : ℕ) : numbered (pageName index) = some (pageDigits index) := by
  have htext : (pageName index).toList =
      "storage-".toList ++ (pageDigits index ++ ".jsonl.gz".toList) := by
    unfold pageName pageDigits
    rw [String.toList_ofList, List.append_assoc]
  have hstart : "storage-".toList.isPrefixOf (pageName index).toList = true := by
    rw [htext, List.isPrefixOf_iff_prefix]
    exact List.prefix_append _ _
  have hrest : (pageName index).toList.drop 8 = pageDigits index ++ ".jsonl.gz".toList := by
    rw [htext]
    rfl
  have hsuffix : ".jsonl.gz".toList.isSuffixOf (pageDigits index ++ ".jsonl.gz".toList) = true := by
    rw [List.isSuffixOf_iff_suffix]
    exact List.suffix_append _ _
  have htake : (pageDigits index ++ ".jsonl.gz".toList).take
      ((pageDigits index ++ ".jsonl.gz".toList).length-9) = pageDigits index := by
    have hlength : (pageDigits index ++ ".jsonl.gz".toList).length-9 = (pageDigits index).length := by
      rw [List.length_append]
      exact Nat.add_sub_cancel _ _
    rw [hlength, List.take_left]
  rw [numbered]
  simp only [hstart, hrest, hsuffix, htake, if_true]

theorem pageName_injective : Function.Injective pageName := by
  intro i j h
  have hdigits : some (pageDigits i) = some (pageDigits j) := by
    rw [← pageName_numbered, h, pageName_numbered]
  rw [← pageDigits_number i, Option.some.inj hdigits, pageDigits_number]

theorem pageName_other {name : String} (h : numbered name = none) (index : ℕ) :
    pageName index ≠ name := by
  rintro rfl
  rw [pageName_numbered] at h
  cases h

theorem pageName_accounts (index : ℕ) : pageName index ≠ "accounts.json" :=
  pageName_other (by decide) index

theorem pageName_manifest (index : ℕ) : pageName index ≠ "manifest.json" :=
  pageName_other (by decide) index

theorem pageName_file {index : ℕ} (h : index < 1000000) : isFileName (pageName index) = true := by
  have hlength : (Nat.toDigits 10 index).length ≤ 6 :=
    (Nat.length_toDigits_le_iff (by norm_num) (by norm_num)).mpr h
  have hdigits : (pageDigits index).all Char.isDigit = true := by
    rw [pageDigits_eq, List.all_append]
    refine Bool.and_eq_true_iff.mpr ⟨List.all_eq_true.mpr (fun c hc => ?_),
      List.all_eq_true.mpr (fun c hc => Nat.isDigit_of_mem_toDigits (by omega) (by omega) hc)⟩
    rw [(List.mem_replicate.mp hc).2]
    rfl
  have hsix : (pageDigits index).length = 6 := by
    rw [pageDigits_eq, List.length_append, List.length_replicate]
    omega
  rw [isFileName, pageName_numbered, Option.any_some, hsix, hdigits]
  simp

section Chunked
variable {α β : Type} {pageSize : ℕ}

/-- Rows cut into pages, behind those that wait for a full page. -/
def chunked (pageSize : ℕ) : List α → List α → List (List α)
  | pending, [] => if pending.isEmpty then [] else [pending]
  | pending, row::rows =>
    if (pending++[row]).length = pageSize then (pending++[row])::chunked pageSize [] rows
    else chunked pageSize (pending++[row]) rows

theorem chunked_flat (pageSize : ℕ) (pending rows : List α) :
    (chunked pageSize pending rows).flatten = pending++rows := by
  induction rows generalizing pending with
  | nil =>
    unfold chunked
    split_ifs with hp
    · rw [List.isEmpty_iff.mp hp]
      rfl
    · simp
  | cons row rows ih =>
    unfold chunked
    split_ifs
    · rw [List.flatten_cons, ih, List.nil_append, List.append_assoc, List.singleton_append]
    · rw [ih, List.append_assoc, List.singleton_append]

theorem chunked_sizes {pending rows : List α} (hp : pending.length < pageSize) :
    ∀ page ∈ chunked pageSize pending rows, page ≠ [] ∧ page.length ≤ pageSize := by
  induction rows generalizing pending with
  | nil =>
    unfold chunked
    split_ifs with he
    · simp
    · rintro page hpage
      obtain rfl := List.mem_singleton.mp hpage
      exact ⟨fun h => he (List.isEmpty_iff.mpr h),hp.le⟩
  | cons row rows ih =>
    unfold chunked
    split_ifs with he
    · exact List.forall_mem_cons.mpr ⟨⟨by simp,he.le⟩,ih (Nat.zero_lt_of_lt hp)⟩
    · refine ih (lt_of_le_of_ne ?_ he)
      rw [List.length_append, List.length_singleton]
      exact hp

theorem chunked_map (f : α → β) (pending rows : List α) :
    chunked pageSize (pending.map f) (rows.map f) = (chunked pageSize pending rows).map (List.map f) := by
  induction rows generalizing pending with
  | nil =>
    rw [List.map_nil]
    unfold chunked
    rw [List.isEmpty_map]
    split_ifs <;> rfl
  | cons row rows ih =>
    have hnext : pending.map f++[f row] = (pending++[row]).map f := by
      rw [List.map_append, List.map_singleton]
    rw [List.map_cons]
    unfold chunked
    rw [hnext, List.length_map]
    split_ifs
    · rw [List.map_cons]
      exact congrArg _ (ih [])
    · exact ih (pending++[row])

end Chunked

def exportChunks (db : CheckpointDb) (snapshotId : String) (pageSize : ℕ) (accounts : List String) :
    List Chunk :=
  accounts.flatMap (fun a => (chunked pageSize [] (accountRows db snapshotId a)).map (a,·))

def pageFiles (codec : Codec) (chunks : List Chunk) : List (String × Bytes) :=
  chunks.zipIdx.map (fun e => (pageName e.2,pageBytes codec e.1.2))

def written (codec : Codec) (accounts : Bytes) (chunks : List Chunk) : Exporting where
  files := (SortedMap.empty.insert "accounts.json" accounts).insertAll (pageFiles codec chunks)
  pages := pageItems codec chunks

section Write
variable {codec : Codec} {accounts : Bytes} {chunks : List Chunk} {account : String}
  {db : CheckpointDb} {snapshotId : String} {pageSize : ℕ}

theorem zipIdx_snoc (chunks : List Chunk) (c : Chunk) :
    (chunks++[c]).zipIdx = chunks.zipIdx++[(c,chunks.length)] := by
  rw [List.zipIdx_append, List.zipIdx_singleton, Nat.zero_add]

theorem lookup_distinct {α β : Type} [LinearOrder α] {l : List (α × β)} {k : α} {v : β}
    (hd : l.Pairwise (fun a b => a.1 ≠ b.1)) (h : (k,v) ∈ l) : lookup k l = some v := by
  induction l with
  | nil => cases h
  | cons e l ih =>
    obtain ⟨hne,hd⟩ := List.pairwise_cons.mp hd
    rcases List.mem_cons.mp h with rfl | h
    · simp [lookup]
    · rw [lookup, if_neg (hne _ h).symm]
      exact ih hd h

theorem pageFiles_fresh {index : ℕ} (h : chunks.length ≤ index) :
    lookup (pageName index) (pageFiles codec chunks) = none := by
  refine lookup_eq_none_iff.mpr (fun e he hname => ?_)
  obtain ⟨c,hc,rfl⟩ := List.mem_map.mp he
  have hlt : c.2 < chunks.length := by
    simpa using List.snd_lt_of_mem_zipIdx hc
  rw [← pageName_injective hname] at hlt
  omega

theorem pageFiles_distinct (codec : Codec) (chunks : List Chunk) :
    (pageFiles codec chunks).Pairwise (fun a b => a.1 ≠ b.1) := by
  induction chunks using List.reverseRecOn with
  | nil => exact .nil
  | append_singleton chunks c ih =>
    rw [pageFiles, zipIdx_snoc, List.map_append, ← pageFiles]
    refine List.pairwise_append.mpr ⟨ih,List.pairwise_singleton _ _,fun e he f hf hname => ?_⟩
    obtain rfl := List.mem_singleton.mp hf
    exact lookup_eq_none_iff.mp (pageFiles_fresh le_rfl) e he hname.symm

theorem written_accounts (codec : Codec) (accounts : Bytes) (chunks : List Chunk) :
    (written codec accounts chunks).files.get? "accounts.json" = some accounts := by
  have hnone : lookup "accounts.json" (pageFiles codec chunks) = none := by
    refine lookup_eq_none_iff.mpr (fun e he hname => ?_)
    obtain ⟨c,-,rfl⟩ := List.mem_map.mp he
    exact pageName_accounts _ hname.symm
  rw [written, SortedMap.get?_insertAll _ (pageFiles_distinct codec chunks), hnone,
    SortedMap.get?_insert, if_pos rfl]
  rfl

theorem written_fresh {index : ℕ} (h : chunks.length ≤ index) :
    (written codec accounts chunks).files.get? (pageName index) = none := by
  rw [written, SortedMap.get?_insertAll _ (pageFiles_distinct codec chunks), pageFiles_fresh h,
    SortedMap.get?_insert, if_neg (pageName_accounts index)]
  rfl

theorem written_holds (codec : Codec) (accounts : Bytes) (chunks : List Chunk) :
    Holds codec accounts (written codec accounts chunks) chunks := by
  refine ⟨rfl,fun e he => ?_,written_accounts codec accounts chunks⟩
  have hmem : (pageName e.2,pageBytes codec e.1.2) ∈ pageFiles codec chunks :=
    List.mem_map.mpr ⟨e,he,rfl⟩
  rw [written, SortedMap.get?_insertAll _ (pageFiles_distinct codec chunks),
    lookup_distinct (pageFiles_distinct codec chunks) hmem]
  rfl

theorem writePage_written {rows : List Json} (hn : chunks.length < 1000000) (hr : rows ≠ []) :
    writePage codec (written codec accounts chunks) account rows =
      .ok (written codec accounts (chunks++[(account,rows)])) := by
  have hlength : (written codec accounts chunks).pages.length = chunks.length := by
    rw [written, pageItems, List.length_map, List.length_zipIdx]
  have hfiles : pageFiles codec (chunks++[(account,rows)]) =
      pageFiles codec chunks++[(pageName chunks.length,pageBytes codec rows)] := by
    rw [pageFiles, zipIdx_snoc, List.map_append]
    rfl
  have hpages : pageItems codec (chunks++[(account,rows)]) =
      pageItems codec chunks++[pageItem codec chunks.length account rows] := by
    rw [pageItems, zipIdx_snoc, List.map_append]
    rfl
  refine bind_ok.mpr ⟨(),ensure_ok.mpr ⟨hlength ▸ hn,hr⟩,bind_ok.mpr ⟨_,bind_ok.mpr ⟨(),
    ensure_ok.mpr ?_,rfl⟩,?_⟩⟩
  · rw [hlength]
    exact written_fresh le_rfl
  · rw [hlength, written, written, hfiles, hpages, SortedMap.insertAll, SortedMap.insertAll,
      List.foldl_append]
    rfl

theorem writePages_written {pending rows : List Json}
    (hn : chunks.length+(chunked pageSize pending rows).length ≤ 1000000) :
    writePages codec pageSize account (written codec accounts chunks) pending rows =
      .ok (written codec accounts (chunks++(chunked pageSize pending rows).map (account,·))) := by
  induction rows generalizing chunks pending with
  | nil =>
    unfold chunked at hn ⊢
    unfold writePages
    simp only [← List.isEmpty_iff]
    split_ifs at hn ⊢ with hp
    · rw [List.map_nil, List.append_nil]
      rfl
    · exact writePage_written (Nat.lt_of_succ_le hn) (fun h => hp (List.isEmpty_iff.mpr h))
  | cons row rows ih =>
    unfold chunked at hn ⊢
    unfold writePages
    split_ifs at hn ⊢
    · rw [List.length_cons] at hn
      refine bind_ok.mpr ⟨_,writePage_written (by omega) (by simp),?_⟩
      have hrest : (chunks++[(account,pending++[row])]).length+(chunked pageSize [] rows).length ≤
          1000000 := by
        rw [List.length_append, List.length_singleton]
        omega
      rw [ih hrest, List.append_assoc, List.map_cons, List.singleton_append]
    · exact ih hn

theorem exportAccounts_written {listed : List String}
    (hn : chunks.length+(exportChunks db snapshotId pageSize listed).length ≤ 1000000) :
    (listed.map Json.str).foldlM (exportAccount codec db snapshotId pageSize)
        (written codec accounts chunks) =
      .ok (written codec accounts (chunks++exportChunks db snapshotId pageSize listed)) := by
  induction listed generalizing chunks with
  | nil =>
    rw [exportChunks, List.flatMap_nil, List.append_nil]
    rfl
  | cons a listed ih =>
    rw [exportChunks, List.flatMap_cons, ← exportChunks] at hn ⊢
    rw [List.length_append, List.length_map] at hn
    have hown : chunks.length+(chunked pageSize [] (accountRows db snapshotId a)).length ≤ 1000000 := by
      omega
    have hfirst : exportAccount codec db snapshotId pageSize (written codec accounts chunks) (.str a) =
        .ok (written codec accounts (chunks++(chunked pageSize []
          (accountRows db snapshotId a)).map (a,·))) :=
      bind_ok.mpr ⟨a,rfl,writePages_written hown⟩
    have hrest : (chunks++(chunked pageSize [] (accountRows db snapshotId a)).map (a,·)).length+
        (exportChunks db snapshotId pageSize listed).length ≤ 1000000 := by
      rw [List.length_append, List.length_map]
      omega
    refine bind_ok.mpr ⟨_,hfirst,?_⟩
    rw [ih hrest, List.append_assoc]

end Write

theorem rowJson_obj (account : String) (p : String × String) : rowJson account p =
    .obj [("address",.str account),("slot",.str p.1),("value",.str p.2)] := by
  have hslot : ¬ "slot" < "address" := by decide
  have hvalue : ¬ "value" < "address" := by decide
  have hlast : ¬ "value" < "slot" := by decide
  show Json.obj ((SortedMap.empty.insertAll _).entries) = _
  simp only [SortedMap.insertAll, List.foldl_cons, List.foldl_nil, SortedMap.insert, SortedMap.empty,
    put, hslot, hvalue, hlast, String.reduceEq, if_false]

theorem escape_digit {c : Char} {n : ℕ} (h : digitValue c = some n) : Json.escape c = [c] := by
  have hne : ∀ d : Char, digitValue d = none → c ≠ d := by
    rintro d hd rfl
    rw [h] at hd
    cases hd
  have hrange : 48 ≤ c.toNat ∧ c.toNat < 128 := by
    have h0 : '0'.toNat = 48 := rfl
    have h9 : '9'.toNat = 57 := rfl
    have ha : 'a'.toNat = 97 := rfl
    have hf : 'f'.toNat = 102 := rfl
    have hA : 'A'.toNat = 65 := rfl
    have hF : 'F'.toNat = 70 := rfl
    simp only [digitValue, le_iff_toNat] at h
    split_ifs at h <;> omega
  unfold Json.escape
  rw [if_neg (hne _ (by decide)), if_neg (hne _ (by decide)), if_neg (by omega), if_neg (by omega),
    if_neg (by omega), if_neg (by omega), if_neg (by omega), if_neg (by omega), if_pos hrange.2]

theorem decodeChars_digits : ∀ {cs : List Char} {bs : Bytes}, decodeChars cs = some bs →
    ∀ c ∈ cs, ∃ n, digitValue c = some n
  | [], _, _ => by simp
  | [_], _, h => by cases h
  | c::d::cs, _, h => by
    obtain ⟨hi,lo,rest,hh,hl,hr,-⟩ := decodeChars_cons h
    exact List.forall_mem_cons.mpr ⟨⟨hi,hh⟩,List.forall_mem_cons.mpr ⟨⟨lo,hl⟩,decodeChars_digits hr⟩⟩

theorem quote_fixed {n : ℕ} {text : String} {b : Bytes} (h : fixed n text = .ok b) :
    (Json.quote text).length = 2*n+4 := by
  obtain ⟨hu,rfl⟩ := fixed_ok.mp h
  unfold unhex at hu
  split at hu
  · rename_i raw htext
    obtain ⟨_,-,hraw⟩ := bind_ok.mp hu
    have hraw := context_ok.mp hraw
    have hplain : raw.flatMap Json.escape = raw := by
      rw [List.flatMap_congr (fun c hc => ?_), List.flatMap_singleton']
      obtain ⟨n,hn⟩ := decodeChars_digits hraw c hc
      exact escape_digit hn
    have hx : Json.escape 'x' = ['x'] := by decide
    have h0 : Json.escape '0' = ['0'] := by decide
    rw [Json.quote, htext, List.flatMap_cons, List.flatMap_cons, h0, hx, hplain]
    simp only [List.length_append, List.length_cons, List.length_nil, decodeChars_length hraw]
    omega
  · cases hu

theorem row_fits {account : String} {p : String × String} {a s v : Bytes}
    (ha : fixed 20 account = .ok a) (hs : fixed 32 p.1 = .ok s) (hv : fixed 32 p.2 = .ok v) :
    (utf8 (rowJson account p).canonicalJson).length < 1024 := by
  have hlength : (rowJson account p).compact.length = 209 := by
    have hk1 : (Json.quote "address").length = 9 := by decide
    have hk2 : (Json.quote "slot").length = 6 := by decide
    have hk3 : (Json.quote "value").length = 7 := by decide
    rw [rowJson_obj]
    simp only [Json.compact, Json.compactFields, List.length_append, List.length_cons, List.length_nil,
      quote_fixed ha, quote_fixed hs, quote_fixed hv, hk1, hk2, hk3]
  have hbytes := utf8ByteSize_le (rowJson account p).compact
  rw [hlength] at hbytes
  exact lt_of_le_of_lt hbytes (by norm_num)

section Read
variable {fromSlice : Bytes → Option Json} {account : String} {r : PageRows}

/-- A page that still has these rows in front of it. -/
structure Pending (account : String) (ps : List (String × String)) (r : PageRows) : Prop where
  reader : r.reader = ⟨lines (ps.map (fun p => (rowJson account p).canonicalJson)),none⟩
  address : r.item.index "address" = .str account
  rows : (r.item.index "rows").asU64 = some (r.count+ps.length)
  first : (r.item.index "first_slot").asStr = r.first.or (ps.head?.map Prod.fst)
  last : (r.item.index "last_slot").asStr = (ps.getLast?.map Prod.fst).or r.last
  above : ∀ p ∈ ps, r.last.all (fun last => decide (last < p.1)) = true

theorem rowJson_index (account : String) (p : String × String) (name : String) :
    (rowJson account p).index name =
      (lookup name [("address",.str account),("slot",.str p.1),("value",.str p.2)]).getD .null :=
  Json.index_ofPairs (by simp) name

theorem rowJson_fields (account : String) (p : String × String) :
    hasRowFields (rowJson account p) = true := by
  rw [rowJson_obj]
  simp [hasRowFields, Json.asObject, Json.get?, lookup]

theorem Pending.next (hb : ReadsBack fromSlice) {p : String × String} {ps : List (String × String)}
    {a s v : Bytes} (h : Pending account (p::ps) r) (hsorted : ∀ q ∈ ps, p.1 < q.1)
    (ha : fixed 20 account = .ok a) (hs : fixed 32 p.1 = .ok s) (hv : fixed 32 p.2 = .ok v) :
    ∃ r', r.readNext fromSlice = .ok (some (rowJson account p,r')) ∧ Pending account ps r' := by
  let rest : Stream UInt8 := ⟨lines (ps.map (fun p => (rowJson account p).canonicalJson)),none⟩
  have hfits := row_fits ha hs hv
  have hsimple := rowJson_simple 126 account p
  have hslot : string (rowJson account p) "slot" = .ok p.1 :=
    string_index ((rowJson_index account p _).trans (by simp [lookup]))
  have hvalue : string (rowJson account p) "value" = .ok p.2 :=
    string_index ((rowJson_index account p _).trans (by simp [lookup]))
  have haddress : (rowJson account p).index "address" = .str account :=
    (rowJson_index account p _).trans (by simp [lookup])
  refine ⟨⟨rest,r.item,r.count+1,some (r.first.getD p.1),some p.1⟩,
    readNext_some.mpr ⟨utf8 (rowJson account p).canonicalJson++[newline],p.1,p.2,?_⟩,?_⟩
  · refine ⟨?_,⟨by simp,?_,by simp⟩,fromSlice_line hb hsimple,⟨rowJson_fields account p,?_⟩,
      ⟨hslot,s,hs⟩,⟨hvalue,v,hv⟩,h.above p List.mem_cons_self,?_,rfl⟩
    · rw [h.reader, List.map_cons]
      exact readUntil_text (canonical_line hsimple.stored) (lt_trans hfits (by norm_num))
    · rw [List.length_append, List.length_singleton]
      exact hfits
    · rw [haddress, h.address]
    · rw [h.rows, Option.any_some]
      exact decide_eq_true (by simp)
  · refine ⟨rfl,h.address,?_,?_,?_,fun q hq => decide_eq_true (hsorted q hq)⟩
    · show (r.item.index "rows").asU64 = some (r.count+1+ps.length)
      rw [h.rows, List.length_cons, Nat.add_assoc, Nat.add_comm 1]
    · show (r.item.index "first_slot").asStr = some (r.first.getD p.1)
      rw [h.first]
      cases r.first <;> rfl
    · show (r.item.index "last_slot").asStr = (ps.getLast?.map Prod.fst).or (some p.1)
      rw [h.last, List.getLast?_cons]
      cases ps.getLast? <;> rfl

theorem Pending.finish (h : Pending account [] r) : r.readNext fromSlice = .ok none := by
  have hend : readUntil newline 1025 r.reader = .ok ([],⟨[],none⟩) := by
    rw [h.reader]
    exact readUntil_end
  refine bind_ok.mpr ⟨_,hend,?_⟩
  dsimp only
  rw [if_pos rfl]
  refine bind_ok.mpr ⟨(),ensure_ok.mpr ⟨h.rows.symm,?_,?_⟩,rfl⟩
  · rw [h.first]
    cases r.first <;> rfl
  · exact h.last.symm

theorem Pending.collect (hb : ReadsBack fromSlice) {ps : List (String × String)} {a : Bytes} {n : ℕ}
    (h : Pending account ps r)
    (hsorted : ps.Pairwise (fun p q => p.1 < q.1)) (ha : fixed 20 account = .ok a)
    (hw : ∀ p ∈ ps, (∃ s, fixed 32 p.1 = .ok s) ∧ ∃ v, fixed 32 p.2 = .ok v) (hn : ps.length < n) :
    r.collect fromSlice n = ps.map (fun p => .ok (rowJson account p)) := by
  induction ps generalizing r n with
  | nil =>
    obtain ⟨n,rfl⟩ := Nat.exists_eq_succ_of_ne_zero (Nat.ne_of_gt hn)
    unfold PageRows.collect
    rw [h.finish]
    rfl
  | cons p ps ih =>
    obtain ⟨n,rfl⟩ := Nat.exists_eq_succ_of_ne_zero (Nat.ne_of_gt (Nat.zero_lt_of_lt hn))
    obtain ⟨hp,hsorted⟩ := List.pairwise_cons.mp hsorted
    obtain ⟨⟨⟨s,hs⟩,v,hv⟩,hw⟩ := List.forall_mem_cons.mp hw
    obtain ⟨r',hnext,hr'⟩ := h.next hb hp ha hs hv
    unfold PageRows.collect
    rw [hnext]
    exact congrArg _ (ih hr' hsorted hw (Nat.lt_of_succ_lt_succ hn))

end Read

section Pages
variable {codec : Codec} {fromSlice : Bytes → Option Json} {db : CheckpointDb}
  {snapshotId account : String} {pageSize : ℕ}
  {listed : List String} {chunks : List Chunk} {accounts : Bytes}

theorem exportChunks_own (account : String) :
    ((exportChunks db snapshotId pageSize listed).filter (fun c => c.1 = account)).flatMap Prod.snd =
      (listed.filter (· = account)).flatMap (accountRows db snapshotId) := by
  induction listed with
  | nil => rfl
  | cons a listed ih =>
    rw [exportChunks, List.flatMap_cons, ← exportChunks, List.filter_append, List.flatMap_append, ih,
      List.filter_cons]
    by_cases ha : a = account
    · have hall : ((chunked pageSize [] (accountRows db snapshotId a)).map (fun rows => (a,rows))).filter
          (fun c => c.1 = account) = (chunked pageSize [] (accountRows db snapshotId a)).map (a,·) := by
        refine List.filter_eq_self.mpr (fun c hc => ?_)
        obtain ⟨rows,-,rfl⟩ := List.mem_map.mp hc
        exact decide_eq_true ha
      have hrows : (chunked pageSize [] (accountRows db snapshotId a)).flatMap
          (fun rows => (a,rows).2) = accountRows db snapshotId a := by
        rw [List.flatMap_id', chunked_flat, List.nil_append]
      rw [hall, List.flatMap_map, hrows, if_pos (decide_eq_true ha), List.flatMap_cons]
    · have hnone : ((chunked pageSize [] (accountRows db snapshotId a)).map (fun rows => (a,rows))).filter
          (fun c => c.1 = account) = [] := by
        refine List.filter_eq_nil_iff.mpr (fun c hc => ?_)
        obtain ⟨rows,-,rfl⟩ := List.mem_map.mp hc
        simp [ha]
      rw [hnone, List.flatMap_nil, List.nil_append, if_neg (by simp [ha])]

/-- A page of an account: some of its slots, in their order. -/
theorem mem_exportChunks (hp : 1 ≤ pageSize) {c : Chunk}
    (hc : c ∈ exportChunks db snapshotId pageSize listed) :
    c.1 ∈ listed ∧ ∃ ps : List (String × String), c.2 = ps.map (rowJson c.1) ∧
      ps.Sublist (storedSlots db snapshotId c.1) ∧ ps ≠ [] ∧ ps.length ≤ pageSize := by
  obtain ⟨a,ha,hc⟩ := List.mem_flatMap.mp hc
  obtain ⟨rows,hrows,rfl⟩ := List.mem_map.mp hc
  have hmap : chunked pageSize [] (accountRows db snapshotId a) =
      (chunked pageSize [] (storedSlots db snapshotId a)).map (List.map (rowJson a)) :=
    chunked_map (rowJson a) [] (storedSlots db snapshotId a)
  rw [hmap] at hrows
  obtain ⟨ps,hps,rfl⟩ := List.mem_map.mp hrows
  have hsizes := @chunked_sizes _ pageSize [] (storedSlots db snapshotId a) hp ps hps
  have hsub : ps.Sublist (chunked pageSize [] (storedSlots db snapshotId a)).flatten :=
    List.sublist_flatten_of_mem hps
  rw [chunked_flat, List.nil_append] at hsub
  exact ⟨ha,ps,rfl,hsub,hsizes⟩

theorem exportChunks_sorted (h : listed.Pairwise (· < ·)) :
    (exportChunks db snapshotId pageSize listed).Pairwise (fun c d => c.1 ≤ d.1) := by
  have hfirst : ∀ a, ∀ c ∈ (chunked pageSize [] (accountRows db snapshotId a)).map
      (fun rows => (a,rows)), c.1 = a := by
    intro a c hc
    obtain ⟨rows,-,rfl⟩ := List.mem_map.mp hc
    rfl
  refine List.pairwise_flatMap.mpr ⟨fun a _ => List.pairwise_map.mpr
    (List.pairwise_of_forall (fun _ _ => le_refl a)),h.imp (fun {a b} hlt c hc d hd => ?_)⟩
  rw [hfirst a c hc, hfirst b d hd]
  exact hlt.le

theorem empty_le (s : String) : "" ≤ s :=
  not_lt.mp (fun h => List.not_lt_nil _ (String.lt_iff_toList_lt.mp h))

theorem checkPages_chunks {selected : List String} {last : String} {start : ℕ}
    (hin : ∀ c ∈ chunks, c.1 ∈ selected) (hs : chunks.Pairwise (fun c d => c.1 ≤ d.1))
    (hl : ∀ c ∈ chunks, last ≤ c.1) :
    checkPages selected last ((chunks.zipIdx start).map (pageOf codec)) = .ok () := by
  induction chunks generalizing last start with
  | nil => rfl
  | cons c chunks ih =>
    obtain ⟨hc,hin⟩ := List.forall_mem_cons.mp hin
    obtain ⟨hle,hs⟩ := List.pairwise_cons.mp hs
    have hfield := @pageItem_index codec start c.1 c.2
    have haddress : string (pageItem codec start c.1 c.2) "address" = .ok c.1 :=
      string_index ((hfield _).trans (by simp [lookup]))
    have hfile : (pageItem codec start c.1 c.2).index "file" = .str (pageName start) :=
      (hfield _).trans (by simp [lookup])
    rw [List.zipIdx_cons, List.map_cons]
    exact bind_ok.mpr ⟨c.1,haddress,bind_ok.mpr ⟨(),ensure_ok.mpr ⟨hfile,hc,hl c (by simp)⟩,
      ih hin hs hle⟩⟩

theorem checkFile_written {files : Files} {item : Json} {name : String} {bytes : Bytes}
    (hname : isFileName name = true) (hf : files.get? name = some bytes) (hsize : bytes.length < 2^64)
    (hfile : item.index "file" = .str name) (hbytes : item.index "bytes" = .ofNat bytes.length)
    (hsha : item.index "sha256" = .str (codec.sha256 bytes)) :
    checkFile codec (opened files) item = .ok name := by
  refine bind_ok.mpr ⟨name,string_index hfile,bind_ok.mpr ⟨(),ensure_ok.mpr hname,bind_ok.mpr ⟨_,
    opened_ok hf,bind_ok.mpr ⟨(),ensure_ok.mpr ?_,bind_ok.mpr ⟨_,string_index hsha,bind_ok.mpr ⟨(),
    ensure_ok.mpr rfl,rfl⟩⟩⟩⟩⟩⟩
  rw [hbytes, Json.asU64_ofNat hsize]

theorem pageRows_written (hb : ReadsBack fromSlice)
    (hc : ∀ b, codec.decompress (codec.compress b) = ⟨b,none⟩) {files : Files}
    {ps : List (String × String)} {index : ℕ} {a : Bytes} (ha : fixed 20 account = .ok a)
    (hi : index < 1000000)
    (hf : files.get? (pageName index) = some (pageBytes codec (ps.map (rowJson account))))
    (hsize : (pageBytes codec (ps.map (rowJson account))).length < 2^64)
    (hs : ps.Pairwise (fun p q => p.1 < q.1)) (hne : ps ≠ []) (hle : ps.length ≤ 10000)
    (hw : ∀ p ∈ ps, (∃ s, fixed 32 p.1 = .ok s) ∧ ∃ v, fixed 32 p.2 = .ok v) :
    ∃ r, pageRows codec (disk files) index (pageItem codec index account (ps.map (rowJson account))) =
      .ok r ∧ r.rows fromSlice = (ps.map (rowJson account)).map .ok := by
  have hfield := @pageItem_index codec index account (ps.map (rowJson account))
  have hcount : (pageItem codec index account (ps.map (rowJson account))).index "rows" =
      .ofNat ps.length := (hfield _).trans (by simp [lookup])
  have hname : checkFile codec (opened files)
      (pageItem codec index account (ps.map (rowJson account))) = .ok (pageName index) :=
    checkFile_written (pageName_file hi) hf hsize ((hfield _).trans (by simp [lookup]))
      ((hfield _).trans (by simp [lookup])) ((hfield _).trans (by simp [lookup]))
  have hslot : ∀ p : String × String, (rowJson account p).index "slot" = .str p.1 := fun p =>
    (rowJson_index account p _).trans (by simp [lookup])
  have hpending : Pending account ps ⟨codec.decompress (pageBytes codec (ps.map (rowJson account))),
      pageItem codec index account (ps.map (rowJson account)),0,none,none⟩ := by
    refine ⟨?_,(hfield _).trans (by simp [lookup]),?_,?_,?_,fun _ _ => rfl⟩
    · rw [pageBytes, hc, List.map_map]
      rfl
    · show ((pageItem codec index account (ps.map (rowJson account))).index "rows").asU64 = _
      rw [hcount, Json.asU64_ofNat (lt_of_le_of_lt hle (by norm_num)), Nat.zero_add]
    · have hfirst : (pageItem codec index account (ps.map (rowJson account))).index "first_slot" =
          slotOf (ps.map (rowJson account)).head? := (hfield _).trans (by simp [lookup])
      show ((pageItem codec index account (ps.map (rowJson account))).index "first_slot").asStr = _
      rw [hfirst, List.head?_map]
      cases ps.head? with
      | none => rfl
      | some p => exact congrArg Json.asStr (hslot p)
    · have hlast : (pageItem codec index account (ps.map (rowJson account))).index "last_slot" =
          slotOf (ps.map (rowJson account)).getLast? := (hfield _).trans (by simp [lookup])
      show ((pageItem codec index account (ps.map (rowJson account))).index "last_slot").asStr = _
      rw [hlast, List.getLast?_map]
      cases ps.getLast? with
      | none => rfl
      | some p => exact congrArg Json.asStr (hslot p)
  refine ⟨_,bind_ok.mpr ⟨_,hname,bind_ok.mpr ⟨ps.length,context_ok.mpr ?_,bind_ok.mpr ⟨(),
    ensure_ok.mpr ⟨List.length_pos_of_ne_nil hne,hle⟩,bind_ok.mpr ⟨_,opened_ok hf,rfl⟩⟩⟩⟩,?_⟩
  · rw [hcount, Json.asU64_ofNat (lt_of_le_of_lt hle (by norm_num))]
  · have hlength := lines_length (ps.map (fun p => (rowJson account p).canonicalJson))
    rw [List.length_map] at hlength
    rw [PageRows.rows, hpending.collect hb hs ha hw, List.map_map]
    · rfl
    · rw [hpending.reader]
      exact Nat.lt_succ_of_le hlength

end Pages

section Export
variable (codec : Codec) (alloy : Alloy) (platform : Platform) (db : CheckpointDb)
  (snapshotId : String) (pageSize : ℕ) (snapshot : Json) (selected : List String)

def exportLayout : Json :=
  layoutJson codec snapshot (accountBytes db snapshotId)
    (pageItems codec (exportChunks db snapshotId pageSize selected))

def exportFiles : Files :=
  (written codec (accountBytes db snapshotId) (exportChunks db snapshotId pageSize selected)).files.insert
    "manifest.json" (metadataBytes (exportLayout codec db snapshotId pageSize snapshot selected))

def filesSize (files : Files) : ℕ := (files.values.map List.length).sum

/-- The limits of the format. -/
structure Fits : Prop where
  size : 1 ≤ pageSize ∧ pageSize ≤ 10000
  pages : (exportChunks db snapshotId pageSize selected).length ≤ 1000000
  accounts : (accountBytes db snapshotId).length ≤ maxJsonBytes
  manifest : (metadataBytes (exportLayout codec db snapshotId pageSize snapshot selected)).length ≤
    maxJsonBytes
  total : filesSize (exportFiles codec db snapshotId pageSize snapshot selected) < 2^64

def checkManifest : Except String Unit :=
  checkSnapshot (.ofPairs [("format",.str format),("status",.str "ready"),("checkpoint",snapshot)])

/-- A checkpoint whose stored rows pass the verification of an import. -/
structure Movable : Prop where
  ready : manifest platform.fromSlice db snapshotId = .ok snapshot
  checked : checkManifest snapshot = .ok ()
  header : ∃ text digest, string (snapshot.index "proof_bundle") "header_rlp" = .ok text ∧
    verifyHeader alloy text (snapshot.index "header") none = .ok digest
  coverage : checkCoverage snapshot = .ok selected
  counted : (snapshot.index "account_count").asU64 = some selected.length
  stored : verifyStored alloy platform db snapshotId snapshot = .ok ()

end Export

section Succeeds
variable {codec : Codec} {alloy : Alloy} {platform : Platform} {db : CheckpointDb}
  {snapshotId directory : String} {pageSize : ℕ} {snapshot : Json} {selected : List String}

theorem checkSnapshot_congr {l m : Json}
    (h : ∀ name ∈ ["format","status","checkpoint"], l.index name = m.index name) :
    checkSnapshot l = checkSnapshot m := by
  simp only [List.forall_mem_cons] at h
  obtain ⟨hf,hs,hc,-⟩ := h
  unfold checkSnapshot
  rw [hf, hs, hc]

theorem layout_manifest (accounts : Bytes) (pages : List Json) :
    checkSnapshot (layoutJson codec snapshot accounts pages) = checkManifest snapshot := by
  refine checkSnapshot_congr (fun name hname => ?_)
  have hfields : (Json.ofPairs [("format",.str format),("status",.str "ready"),
      ("checkpoint",snapshot)]).index name = (lookup name [("format",.str format),
        ("status",.str "ready"),("checkpoint",snapshot)]).getD .null := Json.index_ofPairs (by simp) name
  rw [layoutJson_index, hfields]
  simp only [List.mem_cons, List.not_mem_nil, or_false] at hname
  rcases hname with rfl | rfl | rfl <;> simp [lookup]

/-- A stored row whose slots can be read from its pages is verified in the
files as in the tables. -/
theorem verifyRow_stored {d : Disk} {pages : List (ℕ × Json)} {s s' : Verifying} {r : AccountRow}
    (hname : address r.address = .ok r.address)
    (hslots : orderedSlots none (flatRows codec platform.fromSlice d (pages.filter
      (fun e => e.2.index "address" = .str r.address))) = (storedSlots db snapshotId r.address).map .ok)
    (h : verifyStoredRow alloy db snapshotId snapshot s r = .ok s') :
    verifyRow codec alloy platform d snapshot pages s (exportedJson r) = .ok s' ∧ r.nonce < 2^64 ∧
      r.nonzeroSlots < 2^64 := by
  obtain ⟨a,hproven,h⟩ := bind_ok.mp h
  obtain ⟨count,hcount,h⟩ := bind_ok.mp h
  obtain ⟨_,htotal,h⟩ := bind_ok.mp h
  obtain ⟨code,pairs,-,hm,-,-,-,hn⟩ := completeRow_ok hcount
  have hnonce : r.nonce < 2^64 := by
    have hfield : (accountJson r).get? "nonce" = some (.ofNat r.nonce) :=
      (accountJson_field r _).trans (by simp [lookup])
    have hu := hm.nonce
    rw [hfield, Option.bind_some] at hu
    exact (asU64_eq hu).symm ▸ of_decide_eq_true (Option.filter_eq_some_iff.mp hu).2
  have hslot : r.nonzeroSlots < 2^64 := by
    have hfield : (accountJson r).index "nonzero_slots" = .ofNat r.nonzeroSlots := by
      rw [Json.index, accountJson_field]
      simp [lookup]
    rw [hfield] at hn
    exact (asU64_eq hn).symm ▸ of_decide_eq_true (Option.filter_eq_some_iff.mp hn).2
  refine ⟨?_,hnonce,hslot⟩
  have hfield : (exportedJson r).index "nonce" = .str (toString r.nonce) :=
    (exportedJson_index r _).trans (by simp [accountFields, lookup])
  have haddress : (accountJson r).index "address" = .str r.address :=
    (accountFields_index r _ _).trans (by simp [accountFields, lookup])
  refine bind_ok.mpr ⟨(),exportedJson_valid r,bind_ok.mpr ⟨r.nonce,?_,?_⟩⟩
  · rw [hfield]
    exact exactNonce_toString hnonce
  · rw [exportedJson_metadata]
    refine bind_ok.mpr ⟨r.address,string_index haddress,bind_ok.mpr ⟨r.address,hname,bind_ok.mpr ⟨a,
      proveRow_message _ hproven,bind_ok.mpr ⟨count,?_,bind_ok.mpr ⟨(),ensure_ok.mpr
      (ensure_ok.mp htotal),?_⟩⟩⟩⟩⟩
    · show completeRow alloy a (orderedSlots none (flatRows codec platform.fromSlice d _))
        (accountJson r) _ = _
      rw [hslots]
      exact completeRow_message _ hcount
    · show pure (s.add r.address (delivered (orderedSlots none (flatRows codec platform.fromSlice d _)))
        (accountJson r) count) = _
      rw [hslots, delivered_ok]
      exact h

theorem orderedSlots_rows {account : String} {previous : Option String} {ps : List (String × String)}
    (hs : ps.Pairwise (fun p q => p.1 < q.1))
    (hp : ∀ p ∈ ps, previous.all (fun t => decide (t < p.1)) = true) :
    orderedSlots previous ((ps.map (rowJson account)).map .ok) = ps.map .ok := by
  induction ps generalizing previous with
  | nil => rfl
  | cons p ps ih =>
    obtain ⟨hlt,hs⟩ := List.pairwise_cons.mp hs
    have hnext : nextSlot previous (rowJson account p) = .ok p :=
      bind_ok.mpr ⟨p.1,string_index ((rowJson_index account p _).trans (by simp [lookup])),bind_ok.mpr
        ⟨p.2,string_index ((rowJson_index account p _).trans (by simp [lookup])),bind_ok.mpr
        ⟨(),ensure_ok.mpr (hp p List.mem_cons_self),rfl⟩⟩⟩
    rw [List.map_cons, List.map_cons, List.map_cons]
    unfold orderedSlots
    rw [hnext]
    exact congrArg _ (@ih (some p.1) hs (fun q hq => decide_eq_true (hlt q hq)))

theorem foldlM_each {σ α : Type} {f : σ → α → Except String σ} {l : List α} {s t : σ}
    (h : l.foldlM f s = .ok t) : ∀ a ∈ l, ∃ u v, f u a = .ok v := by
  induction l generalizing s with
  | nil => simp
  | cons a l ih =>
    obtain ⟨u,ha,h⟩ := bind_ok.mp h
    exact List.forall_mem_cons.mpr ⟨⟨s,u,ha⟩,ih h⟩

theorem verifyRows_stored {d : Disk} {pages : List (ℕ × Json)} {s s' : Verifying}
    {rows : List AccountRow} (hname : ∀ r ∈ rows, address r.address = .ok r.address)
    (hslots : ∀ r ∈ rows, orderedSlots none (flatRows codec platform.fromSlice d (pages.filter
      (fun e => e.2.index "address" = .str r.address))) = (storedSlots db snapshotId r.address).map .ok)
    (h : rows.foldlM (verifyStoredRow alloy db snapshotId snapshot) s = .ok s') :
    (rows.map exportedJson).foldlM (verifyRow codec alloy platform d snapshot pages) s = .ok s' ∧
      ∀ r ∈ rows, r.nonce < 2^64 ∧ r.nonzeroSlots < 2^64 := by
  induction rows generalizing s with
  | nil => exact ⟨h,by simp⟩
  | cons r rows ih =>
    obtain ⟨hnr,hname⟩ := List.forall_mem_cons.mp hname
    obtain ⟨hsr,hslots⟩ := List.forall_mem_cons.mp hslots
    obtain ⟨s1,hrow,h⟩ := bind_ok.mp h
    obtain ⟨hone,hfits⟩ := verifyRow_stored hnr hsr hrow
    obtain ⟨hrest,hall⟩ := ih hname hslots h
    exact ⟨bind_ok.mpr ⟨s1,hone,hrest⟩,List.forall_mem_cons.mpr ⟨hfits,hall⟩⟩

theorem verifyStoredRow_words {s s' : Verifying} {r : AccountRow}
    (h : verifyStoredRow alloy db snapshotId snapshot s r = .ok s') :
    ∀ p ∈ storedSlots db snapshotId r.address,
      (∃ k, fixed 32 p.1 = .ok k) ∧ ∃ v, fixed 32 p.2 = .ok v := by
  obtain ⟨a,-,h⟩ := bind_ok.mp h
  obtain ⟨count,hcount,-⟩ := bind_ok.mp h
  obtain ⟨_,pairs,-,-,hpairs,-,hhashes,-⟩ := completeRow_ok hcount
  obtain rfl : storedSlots db snapshotId r.address = pairs :=
    List.map_injective_iff.mpr (fun _ _ h => Except.ok.inj h) hpairs
  obtain ⟨leaves,hleaves,-⟩ := hhashes.leaves
  intro p hp
  obtain ⟨leaf,-,hleaf⟩ := (Timeline.exists_related (mapM_ok.mp hleaves)).1 p hp
  obtain ⟨k,hk,hleaf⟩ := bind_ok.mp hleaf
  obtain ⟨v,hv,-⟩ := bind_ok.mp hleaf
  exact ⟨⟨k,hk⟩,v,hv⟩

theorem flatRows_opened {d : Disk} {es : List (Chunk × ℕ)}
    (h : ∀ e ∈ es, ∃ r, pageRows codec d (pageOf codec e).1 (pageOf codec e).2 = .ok r ∧
      r.rows platform.fromSlice = e.1.2.map .ok) :
    flatRows codec platform.fromSlice d (es.map (pageOf codec)) =
      (es.flatMap (fun e => e.1.2)).map .ok := by
  induction es with
  | nil => rfl
  | cons e es ih =>
    obtain ⟨⟨r,hr,hrows⟩,h⟩ := List.forall_mem_cons.mp h
    rw [List.map_cons, flatRows, List.flatMap_cons, ← flatRows, ih h, hr, List.flatMap_cons,
      List.map_append]
    exact congrArg (· ++ _) hrows

theorem le_filesSize {files : Files} {name : String} {bytes : Bytes} (h : files.get? name = some bytes) :
    bytes.length ≤ filesSize files := by
  have hmem : bytes.length ∈ files.values.map List.length :=
    List.mem_map.mpr ⟨bytes,List.mem_map.mpr ⟨_,SortedMap.mem_entries.mpr h,rfl⟩,rfl⟩
  exact List.le_sum_of_mem hmem

theorem Movable.rows (h : Movable alloy platform db snapshotId snapshot selected) :
    (accountsOf db snapshotId).map (·.address) = selected ∧
      (storageOf db snapshotId).length < 2^64 ∧
      ∃ s, (accountsOf db snapshotId).foldlM (verifyStoredRow alloy db snapshotId snapshot) ⟨"",0⟩ =
          .ok s ∧ some s.total = (snapshot.index "nonzero_slots").asU64 ∧
        snapshot.index "state_sha256" = .str (platform.sha256 s.digested) := by
  obtain ⟨_,hcoverage,hstored⟩ := bind_ok.mp h.stored
  obtain ⟨s,hs,hstored⟩ := bind_ok.mp hstored
  obtain ⟨hcount,htotal,hchecksum⟩ := ensure_ok.mp hstored
  have haddresses := Json.arr.inj ((ensure_ok.mp hcoverage).trans (coverage_ok h.coverage).2)
  refine ⟨?_,?_,s,hs,htotal,hchecksum⟩
  · refine List.map_injective_iff.mpr (fun _ _ h => Json.str.inj h) ?_
    rw [List.map_map]
    exact haddresses
  · obtain ⟨text,hnum,hdec⟩ := asU64_num htotal.symm
    rw [hnum] at htotal
    rw [hcount]
    exact of_decide_eq_true (Option.filter_eq_some_iff.mp htotal.symm).2

theorem Movable.opens (h : Movable alloy platform db snapshotId snapshot selected)
    (hb : ReadsBack platform.fromSlice) (hc : ∀ b, codec.decompress (codec.compress b) = ⟨b,none⟩)
    (hf : Fits codec db snapshotId pageSize snapshot selected) :
    ∀ e ∈ (exportChunks db snapshotId pageSize selected).zipIdx, ∃ r,
      pageRows codec (disk (written codec (accountBytes db snapshotId)
        (exportChunks db snapshotId pageSize selected)).files) (pageOf codec e).1 (pageOf codec e).2 =
          .ok r ∧ r.rows platform.fromSlice = e.1.2.map .ok := by
  obtain ⟨haddresses,-,s,hs,-⟩ := h.rows
  rintro ⟨⟨account,rows⟩,index⟩ he
  have hmem := List.fst_mem_of_mem_zipIdx he
  obtain ⟨hin,ps,hrows,hsub,hne,hle⟩ := mem_exportChunks hf.size.1 hmem
  obtain rfl : rows = ps.map (rowJson account) := hrows
  obtain ⟨r,hr,rfl⟩ := List.mem_map.mp (haddresses ▸ hin)
  obtain ⟨u,v,hrow⟩ := foldlM_each hs r hr
  obtain ⟨b,hlength,haccount⟩ := (coverage_ok h.coverage).1.address _ hin
  have hi : index < 1000000 := by
    have hlt := List.snd_lt_of_mem_zipIdx he
    have hpages := hf.pages
    omega
  have hget := (written_holds codec (accountBytes db snapshotId)
    (exportChunks db snapshotId pageSize selected)).files _ he
  have hsize : (pageBytes codec (ps.map (rowJson r.address))).length < 2^64 := by
    refine lt_of_le_of_lt (le_filesSize (?_ : (exportFiles codec db snapshotId pageSize snapshot
      selected).get? (pageName index) = _)) hf.total
    rw [exportFiles, SortedMap.get?_insert, if_neg (pageName_manifest index)]
    exact hget
  refine pageRows_written hb hc (fixed_ok.mpr ⟨?_,hlength⟩) hi hget hsize
    ((stored_sorted db snapshotId r.address).sublist hsub) hne (hle.trans hf.size.2)
    (fun p hp => verifyStoredRow_words hrow p (hsub.subset hp))
  rw [haccount]
  exact unhex_hex b

theorem Movable.readAccounts (h : Movable alloy platform db snapshotId snapshot selected)
    (hb : ReadsBack platform.fromSlice)
    (hf : Fits codec db snapshotId pageSize snapshot selected)
    (haddresses : (accountsOf db snapshotId).map (·.address) = selected) :
    readAccounts codec platform (disk (written codec (accountBytes db snapshotId)
        (exportChunks db snapshotId pageSize selected)).files)
      (exportLayout codec db snapshotId pageSize snapshot selected) selected =
        .ok ((accountsOf db snapshotId).map exportedJson) := by
  have hitem : (exportLayout codec db snapshotId pageSize snapshot selected).index "account_file" =
      .ofPairs [("file",.str "accounts.json"),("bytes",.ofNat (accountBytes db snapshotId).length),
        ("sha256",.str (codec.sha256 (accountBytes db snapshotId)))] := by
    rw [exportLayout, layoutJson_index]
    simp [lookup]
  have hfield : ∀ name, ((exportLayout codec db snapshotId pageSize snapshot selected).index
      "account_file").index name = (lookup name [("file",.str "accounts.json"),
        ("bytes",.ofNat (accountBytes db snapshotId).length),
        ("sha256",.str (codec.sha256 (accountBytes db snapshotId)))]).getD .null := by
    intro name
    rw [hitem]
    exact Json.index_ofPairs (by simp) name
  have hget := written_accounts codec (accountBytes db snapshotId)
    (exportChunks db snapshotId pageSize selected)
  have hname : checkFile codec (disk (written codec (accountBytes db snapshotId)
      (exportChunks db snapshotId pageSize selected)).files .checkAccounts)
      ((exportLayout codec db snapshotId pageSize snapshot selected).index "account_file") =
        .ok "accounts.json" :=
    checkFile_written (by decide) hget (lt_of_le_of_lt hf.accounts (by decide))
      ((hfield _).trans (by simp [lookup])) ((hfield _).trans (by simp [lookup]))
      ((hfield _).trans (by simp [lookup]))
  have hread : readJson platform.fromSlice (disk (written codec (accountBytes db snapshotId)
      (exportChunks db snapshotId pageSize selected)).files .readAccounts "accounts.json") =
        .ok (.arr ((accountsOf db snapshotId).map exportedJson)) := by
    rw [disk, opened_ok hget]
    exact readJson_metadata hb (accounts_simple 125 db snapshotId) hf.accounts
  have hnames : ((accountsOf db snapshotId).map exportedJson).mapM (fun row => string row "address") =
      .ok selected := by
    rw [← haddresses]
    exact mapM_ok.mpr (List.forall₂_map_left_iff.mpr (List.forall₂_map_right_iff.mpr
      (List.forall₂_same.mpr (fun r _ => exportedJson_address r))))
  have hcheckpoint : (exportLayout codec db snapshotId pageSize snapshot selected).index "checkpoint" =
      snapshot := layout_checkpoint _ _ _
  refine bind_ok.mpr ⟨_,hname,bind_ok.mpr ⟨_,hread,bind_ok.mpr ⟨_,context_ok.mpr rfl,bind_ok.mpr ⟨_,
    hnames,bind_ok.mpr ⟨(),ensure_ok.mpr rfl,bind_ok.mpr ⟨(),ensure_ok.mpr ?_,rfl⟩⟩⟩⟩⟩⟩
  rw [hcheckpoint, h.counted, ← haddresses, List.length_map, List.length_map]

theorem Movable.verifies (h : Movable alloy platform db snapshotId snapshot selected)
    (hb : ReadsBack platform.fromSlice) (hc : ∀ b, codec.decompress (codec.compress b) = ⟨b,none⟩)
    (hf : Fits codec db snapshotId pageSize snapshot selected) :
    (∃ report, verifyLayout codec alloy platform (disk (written codec (accountBytes db snapshotId)
        (exportChunks db snapshotId pageSize selected)).files)
      (exportLayout codec db snapshotId pageSize snapshot selected) none = .ok report) ∧
    ∀ r ∈ accountsOf db snapshotId, r.nonce < 2^64 ∧ r.nonzeroSlots < 2^64 := by
  obtain ⟨haddresses,-,s,hs,htotal,hchecksum⟩ := h.rows
  obtain ⟨hcanon,hlisted⟩ := coverage_ok h.coverage
  obtain ⟨text,digest,htext,hdigest⟩ := h.header
  have hname : ∀ r ∈ accountsOf db snapshotId, address r.address = .ok r.address := by
    intro r hr
    obtain ⟨b,hb,hrow⟩ := hcanon.address _ (haddresses ▸ List.mem_map.mpr ⟨r,hr,rfl⟩)
    rw [hrow]
    exact address_hex hb
  have hslots : ∀ r ∈ accountsOf db snapshotId, orderedSlots none (flatRows codec platform.fromSlice
      (disk (written codec (accountBytes db snapshotId) (exportChunks db snapshotId pageSize
        selected)).files)
      (ownPages codec (exportChunks db snapshotId pageSize selected) r.address)) =
        (storedSlots db snapshotId r.address).map .ok := by
    intro r hr
    have hin : r.address ∈ selected := haddresses ▸ List.mem_map.mpr ⟨r,hr,rfl⟩
    rw [ownPages_eq, flatRows_opened (fun e he => h.opens hb hc hf e (List.mem_filter.mp he).1),
      ownPages_rows, exportChunks_own, filter_one hcanon.sorted.nodup hin, List.flatMap_singleton]
    exact orderedSlots_rows (stored_sorted db snapshotId r.address) (fun _ _ => rfl)
  obtain ⟨hrows,hfits⟩ := verifyRows_stored hname hslots hs
  have hcheckpoint : (exportLayout codec db snapshotId pageSize snapshot selected).index "checkpoint" =
      snapshot := layout_checkpoint _ _ _
  have hpages : ((exportLayout codec db snapshotId pageSize snapshot selected).index
      "storage_pages").asArray = some (pageItems codec (exportChunks db snapshotId pageSize selected)) := by
    rw [exportLayout, layoutJson_index]
    simp [lookup, Json.asArray]
  have hordered : checkPages selected "" ((pageItems codec (exportChunks db snapshotId pageSize
      selected)).zipIdx.map Prod.swap) = .ok () := by
    rw [pageItems, layout_pages]
    exact checkPages_chunks (fun c hc => (mem_exportChunks hf.size.1 hc).1)
      (exportChunks_sorted hcanon.sorted) (fun c _ => empty_le c.1)
  refine ⟨⟨report snapshot selected s.total (platform.sha256 s.digested),?_⟩,hfits⟩
  unfold verifyLayout
  rw [hcheckpoint]
  refine bind_ok.mpr ⟨(),(layout_manifest _ _).trans h.checked,bind_ok.mpr ⟨text,mapError_ok.mpr htext,
    bind_ok.mpr ⟨digest,hdigest,bind_ok.mpr ⟨selected,h.coverage,bind_ok.mpr ⟨_,
    h.readAccounts hb hf haddresses,bind_ok.mpr ⟨_,context_ok.mpr hpages,bind_ok.mpr ⟨(),hordered,
    bind_ok.mpr ⟨s,hrows,bind_ok.mpr ⟨(),ensure_ok.mpr ⟨htotal,hchecksum⟩,rfl⟩⟩⟩⟩⟩⟩⟩⟩⟩

theorem written_manifest (codec : Codec) (accounts : Bytes) (chunks : List Chunk) :
    (written codec accounts chunks).files.get? "manifest.json" = none := by
  have hnone : lookup "manifest.json" (pageFiles codec chunks) = none := by
    refine lookup_eq_none_iff.mpr (fun e he hname => ?_)
    obtain ⟨c,-,rfl⟩ := List.mem_map.mp he
    exact pageName_manifest _ hname.symm
  rw [written, SortedMap.get?_insertAll _ (pageFiles_distinct codec chunks), hnone,
    SortedMap.get?_insert, if_neg (by decide)]
  rfl

theorem Movable.exports (h : Movable alloy platform db snapshotId snapshot selected)
    (hb : ReadsBack platform.fromSlice) (hc : ∀ b, codec.decompress (codec.compress b) = ⟨b,none⟩)
    (hf : Fits codec db snapshotId pageSize snapshot selected) :
    ∃ report, exportCheckpoint codec alloy platform directory db snapshotId pageSize =
      .ok ⟨exportFiles codec db snapshotId pageSize snapshot selected,
        exportLayout codec db snapshotId pageSize snapshot selected,report⟩ := by
  obtain ⟨⟨report,hreport⟩,hfits⟩ := h.verifies hb hc hf
  obtain ⟨text,-,htext,-⟩ := h.header
  have hlisted := (coverage_ok h.coverage).2
  have haccounts : (accountsOf db snapshotId).mapM exportedAccount =
      .ok ((accountsOf db snapshotId).map exportedJson) := by
    refine mapM_ok.mpr (List.forall₂_map_right_iff.mpr (List.forall₂_same.mpr (fun r hr => ?_)))
    exact exportedAccount_ok.mpr ⟨(hfits r hr).1,(hfits r hr).2,rfl⟩
  have hwritten := @exportAccounts_written codec (accountBytes db snapshotId) [] db snapshotId pageSize
    selected (by simpa using hf.pages)
  rw [List.nil_append] at hwritten
  exact ⟨_,bind_ok.mpr ⟨(),ensure_ok.mpr hf.size,bind_ok.mpr ⟨snapshot,h.ready,bind_ok.mpr ⟨text,
    mapError_ok.mpr htext,bind_ok.mpr ⟨_,haccounts,bind_ok.mpr ⟨_,bind_ok.mpr ⟨(),ensure_ok.mpr rfl,rfl⟩,
    bind_ok.mpr ⟨_,context_ok.mpr (congrArg Json.asArray hlisted),bind_ok.mpr ⟨_,hwritten,bind_ok.mpr
    ⟨report,hreport,bind_ok.mpr ⟨_,bind_ok.mpr ⟨(),ensure_ok.mpr (written_manifest _ _ _),rfl⟩,
    bind_ok.mpr ⟨(),ensure_ok.mpr hf.total,rfl⟩⟩⟩⟩⟩⟩⟩⟩⟩⟩⟩

/-- An export verified what an import would verify. -/
theorem exported_movable (hb : ReadsBack platform.fromSlice)
    (hc : ∀ b, codec.decompress (codec.compress b) = ⟨b,none⟩) {e : Exported}
    (hready : manifest platform.fromSlice db snapshotId = .ok snapshot)
    (hlisted : snapshot.index "accounts" = .arr (selected.map .str))
    (hcomplete : ∀ r ∈ storageOf db snapshotId, r.address ∈ selected)
    (he : exportCheckpoint codec alloy platform directory db snapshotId pageSize = .ok e) :
    Movable alloy platform db snapshotId snapshot selected := by
  obtain ⟨snapshot',selected',chunks,h⟩ := exportCheckpoint_ok he
  obtain rfl := Except.ok.inj (hready.symm.trans h.ready)
  obtain ⟨hcanon,hlisted'⟩ := coverage_ok h.coverage
  obtain rfl : selected = selected' :=
    List.map_injective_iff.mpr (fun _ _ h => Json.str.inj h) (Json.arr.inj (hlisted.symm.trans hlisted'))
  obtain ⟨report,hreport,-⟩ := h.verified
  have hchecked := hreport
  obtain ⟨_,hchecked,hrest⟩ := bind_ok.mp hchecked
  obtain ⟨text,htext,hrest⟩ := bind_ok.mp hrest
  obtain ⟨digest,hdigest,-⟩ := bind_ok.mp hrest
  rw [h.layout, layout_manifest] at hchecked
  rw [h.layout, layout_checkpoint] at htext hdigest
  obtain ⟨selected',accounts,pages,s,ht⟩ := verifyLayout_traced hreport
  obtain rfl : selected = selected' := by
    have hsame := ht.coverage
    rw [h.layout, layout_checkpoint] at hsame
    exact Except.ok.inj (h.coverage.symm.trans hsame)
  obtain ⟨haccounts,haddresses,-⟩ := h.readAccounts hb ht.read
  have hcounted : (snapshot.index "account_count").asU64 = some selected.length := by
    obtain ⟨_,-,hread⟩ := bind_ok.mp ht.read
    obtain ⟨_,-,hread⟩ := bind_ok.mp hread
    obtain ⟨_,-,hread⟩ := bind_ok.mp hread
    obtain ⟨_,-,hread⟩ := bind_ok.mp hread
    obtain ⟨_,-,hread⟩ := bind_ok.mp hread
    obtain ⟨_,hcount,hread⟩ := bind_ok.mp hread
    obtain rfl := pure_ok.mp hread
    have hcount := ensure_ok.mp hcount
    rw [h.layout, layout_checkpoint, haccounts, List.length_map] at hcount
    rw [← hcount, ← haddresses, List.length_map]
  have hsame : ∀ r ∈ accountsOf db snapshotId, moved snapshotId r = r := by
    intro r hr
    have hid : r.snapshotId = snapshotId := of_decide_eq_true (List.mem_filter.mp hr).2
    rw [moved, ← hid]
  have hmoved : accountsOf db snapshotId = (accountsOf db snapshotId).map (moved snapshotId) :=
    ((List.map_congr_left hsame).trans (List.map_id _)).symm
  have hstored := (h.reverified hb hc hmoved (fun _ _ => rfl) (haddresses ▸ hcomplete) ht).1
  exact ⟨hready,hchecked,⟨text,digest,mapError_ok.mp htext,hdigest⟩,h.coverage,hcounted,hstored⟩

end Succeeds

end EvmState.Exportable
