import EvmState.Incremental

/-!
# Account lists

The native side and the mapper parse an account list apart, and what they
write is compared as text. Both read the same tokens, a token names the same
account whatever the letter case of its digits, and both write the sorted list
of the distinct accounts.
-/

set_option autoImplicit false

namespace EvmState.AccountLists
open EvmState.Hex EvmState.Fallible EvmState.OrderedMap EvmState.Params EvmState.Encoding
open EvmState.Interval EvmState.Incremental EvmState.BlockProjection

def tokens (text : String) : List (List Char) :=
  (text.toList.splitOnP isSeparator).filter (· ≠ [])

def accountOf (token : List Char) : Option Bytes :=
  (decodeChars (Filter.stripHexPrefix token)).filter (·.length = 20)

/-- Equal characters, or hexadecimal digits of one value. -/
def SameDigit (c d : Char) : Prop := c = d ∨ ∃ n, digitValue c = some n ∧ digitValue d = some n

/-- Two texts with the same tokens up to the letter case of digits, in any
order and number and behind any separators. -/
structure SameAccounts (s t : String) : Prop where
  forth : ∀ a ∈ tokens s, ∃ b ∈ tokens t, List.Forall₂ SameDigit a b
  back : ∀ b ∈ tokens t, ∃ a ∈ tokens s, List.Forall₂ SameDigit a b

theorem splitOnP_free {α : Type*} {p : α → Bool} {l token : List α} (h : token ∈ l.splitOnP p) :
    ∀ c ∈ token, p c = false := by
  induction l generalizing token with
  | nil =>
    obtain rfl := List.mem_singleton.mp h
    simp
  | cons a l ih =>
    rw [List.splitOnP_cons_eq_if_modifyHead] at h
    split_ifs at h with ha
    · rcases List.mem_cons.mp h with rfl | h
      · simp
      · exact ih h
    · cases hs : l.splitOnP p with
      | nil => exact absurd hs (List.splitOnP_ne_nil p l)
      | cons first rest =>
        rw [hs] at h ih
        rcases List.mem_cons.mp h with rfl | h
        · intro c hc
          rcases List.mem_cons.mp hc with rfl | hc
          · simpa using ha
          · exact ih (by simp) c hc
        · exact ih (List.mem_cons_of_mem _ h)

theorem trim_free {token : List Char} (h : ∀ c ∈ token, isWhitespace c = false) :
    trim token = token := by
  have hdrop : ∀ l : List Char, (∀ c ∈ l, isWhitespace c = false) → l.dropWhile isWhitespace = l := by
    intro l hl
    cases l with
    | nil => rfl
    | cons c l => rw [List.dropWhile_cons_of_neg (by simp [hl c])]
  rw [trim, hdrop token h, hdrop _ (fun c hc => h c (List.mem_reverse.mp hc)), List.reverse_reverse]

theorem segment_trim {text : String} {token : List Char}
    (h : token ∈ text.toList.splitOnP isSeparator) : trim token = token := by
  refine trim_free (fun c hc => ?_)
  have := splitOnP_free h c hc
  rw [isSeparator, Bool.or_eq_false_iff] at this
  exact this.2

theorem tokens_join {l : List String} (hne : ∀ a ∈ l, a ≠ "")
    (hfree : ∀ a ∈ l, ∀ c ∈ a.toList, isSeparator c = false) :
    tokens (joinAccounts l) = l.map String.toList := by
  have hsplit : l ≠ [] →
      ((",".toList).intercalate (l.map String.toList)).splitOnP isSeparator = l.map String.toList := by
    induction l with
    | nil => simp
    | cons a l ih =>
      intro _
      have ha := hfree a (by simp)
      cases l with
      | nil => simpa using List.splitOnP_eq_singleton ha
      | cons b l =>
        have hrest := ih (fun c hc => hne c (List.mem_cons_of_mem _ hc))
          (fun c hc => hfree c (List.mem_cons_of_mem _ hc)) (by simp)
        have hcomma : isSeparator ',' = true := by decide
        rw [List.map_cons, List.map_cons, List.intercalate_cons_cons, List.append_assoc]
        show (a.toList ++ ',' :: _).splitOnP isSeparator = _
        rw [List.splitOnP_append_cons_of_forall_mem ha _ hcomma]
        rw [List.map_cons] at hrest
        exact congrArg _ hrest
  rw [tokens, joinAccounts, String.toList_intercalate]
  by_cases hl : l = []
  · subst hl
    rfl
  · rw [hsplit hl, List.filter_eq_self]
    intro token ht
    obtain ⟨a,ha,rfl⟩ := List.mem_map.mp ht
    have := hne a ha
    simpa [String.toList_eq_nil_iff] using this

theorem SameDigit.symm {c d : Char} (h : SameDigit c d) : SameDigit d c := by
  rcases h with rfl | ⟨n,hc,hd⟩
  · exact .inl rfl
  · exact .inr ⟨n,hd,hc⟩

theorem SameDigit.value {c d : Char} (h : SameDigit c d) : digitValue c = digitValue d := by
  rcases h with rfl | ⟨n,hc,hd⟩
  · rfl
  · rw [hc, hd]

theorem same_symm {a b : List Char} (h : List.Forall₂ SameDigit a b) : List.Forall₂ SameDigit b a :=
  h.flip.imp (fun _ _ => SameDigit.symm)

theorem SameAccounts.symm {s t : String} (h : SameAccounts s t) : SameAccounts t s where
  forth b hb := by
    obtain ⟨a,ha,hab⟩ := h.back b hb
    exact ⟨a,ha,same_symm hab⟩
  back a ha := by
    obtain ⟨b,hb,hab⟩ := h.forth a ha
    exact ⟨b,hb,same_symm hab⟩

theorem decodeChars_same {a b : List Char} (h : List.Forall₂ SameDigit a b) :
    decodeChars a = decodeChars b := by
  induction a using decodeChars.induct generalizing b with
  | case1 =>
    cases h
    rfl
  | case2 c =>
    obtain ⟨d,_,-,htail,rfl⟩ := List.forall₂_cons_left_iff.mp h
    cases htail
    rfl
  | case3 c d cs ih =>
    obtain ⟨c',_,hc,htail,rfl⟩ := List.forall₂_cons_left_iff.mp h
    obtain ⟨d',cs',hd,hcs,rfl⟩ := List.forall₂_cons_left_iff.mp htail
    rw [decodeChars, decodeChars, hc.value, hd.value, ih hcs]

theorem same_zero {d : Char} (h : SameDigit '0' d) : d = '0' := by
  rcases h with rfl | ⟨n,hn,hd⟩
  · rfl
  · obtain rfl : n = 0 := by simpa [digitValue] using hn.symm
    have h9 : '9'.toNat = 57 := rfl
    have h0 : '0'.toNat = 48 := rfl
    have ha : 'a'.toNat = 97 := rfl
    have hA : 'A'.toNat = 65 := rfl
    simp only [digitValue, le_iff_toNat] at hd
    split_ifs at hd with h1 h2 h3
    · have hval : d.toNat = 48 := by
        simp only [Option.some.injEq] at hd
        omega
      rw [← Char.ofNat_toNat d, hval]
    · simp only [Option.some.injEq] at hd
      omega
    · simp only [Option.some.injEq] at hd
      omega

theorem same_letter {c d : Char} (hc : digitValue c = none) (h : SameDigit c d) : d = c := by
  rcases h with rfl | ⟨n,hn,-⟩
  · rfl
  · rw [hc] at hn
    cases hn

theorem stripHexPrefix_same {a b : List Char} (h : List.Forall₂ SameDigit a b) :
    List.Forall₂ SameDigit (Filter.stripHexPrefix a) (Filter.stripHexPrefix b) := by
  have hstep : ∀ {a b : List Char}, List.Forall₂ SameDigit a b →
      (∀ raw, a = '0' :: 'x' :: raw → ∃ raw', b = '0' :: 'x' :: raw' ∧ List.Forall₂ SameDigit raw raw') ∧
      (∀ raw, a = '0' :: 'X' :: raw → ∃ raw', b = '0' :: 'X' :: raw' ∧ List.Forall₂ SameDigit raw raw') := by
    intro a b h
    refine ⟨?_,?_⟩
    all_goals
      rintro raw rfl
      obtain ⟨c,_,hc,htail,rfl⟩ := List.forall₂_cons_left_iff.mp h
      obtain ⟨d,raw',hd,hraw,rfl⟩ := List.forall₂_cons_left_iff.mp htail
      obtain rfl := same_zero hc
      obtain rfl := same_letter (by decide) hd
      exact ⟨raw',rfl,hraw⟩
  unfold Filter.stripHexPrefix
  split
  · obtain ⟨raw',rfl,hraw⟩ := (hstep h).1 _ rfl
    exact hraw
  · obtain ⟨raw',rfl,hraw⟩ := (hstep h).2 _ rfl
    exact hraw
  · rename_i hx hX
    split
    · obtain ⟨raw',rfl,-⟩ := (hstep (same_symm h)).1 _ rfl
      exact absurd rfl (hx raw')
    · obtain ⟨raw',rfl,-⟩ := (hstep (same_symm h)).2 _ rfl
      exact absurd rfl (hX raw')
    · exact h

theorem accountOf_same {a b : List Char} (h : List.Forall₂ SameDigit a b) :
    accountOf a = accountOf b := by
  rw [accountOf, accountOf, decodeChars_same (stripHexPrefix_same h)]

theorem parseAccount_ok {token : List Char} {a : {a : Bytes // a.length = 20}} :
    Filter.parseAccount token = .ok a ↔ accountOf token = some a.1 := by
  rw [accountOf, Option.filter_eq_some_iff, Filter.parseAccount]
  constructor
  · intro h
    obtain ⟨bytes,hb,h⟩ := bind_ok.mp h
    split_ifs at h with hl
    obtain rfl := pure_ok.mp h
    exact ⟨context_ok.mp hb,decide_eq_true hl⟩
  · rintro ⟨hb,hl⟩
    refine bind_ok.mpr ⟨a.1,context_ok.mpr hb,?_⟩
    rw [dif_pos a.2]
    rfl

theorem parseToken_ok {f g : Filter} {token : List Char} (ht : trim token = token)
    (h : Filter.parseToken f token = .ok g) :
    (token ≠ [] → ∃ b, accountOf token = some b) ∧
      ∀ b, b ∈ g.accounts ↔ b ∈ f.accounts ∨ (token ≠ [] ∧ accountOf token = some b) := by
  unfold Filter.parseToken at h
  rw [ht] at h
  dsimp only at h
  split_ifs at h with he
  · obtain rfl := pure_ok.mp h
    obtain rfl := List.isEmpty_iff.mp he
    simp
  · obtain ⟨a,ha,h⟩ := bind_ok.mp h
    obtain rfl := pure_ok.mp h
    have hne : token ≠ [] := by simpa using he
    have hacc := parseAccount_ok.mp ha
    refine ⟨fun _ => ⟨a.1,hacc⟩,fun b => ?_⟩
    rw [show (f.insert a.1 a.2).accounts = f.accounts.insert a.1 from rfl, List.mem_insert_iff,
      hacc, Option.some.injEq]
    constructor
    · rintro (rfl | hb)
      · exact .inr ⟨hne,rfl⟩
      · exact .inl hb
    · rintro (hb | ⟨-,rfl⟩)
      · exact .inr hb
      · exact .inl rfl

theorem parseToken_succeeds (f : Filter) {token : List Char} (ht : trim token = token)
    (h : token ≠ [] → ∃ b, accountOf token = some b) : ∃ g, Filter.parseToken f token = .ok g := by
  unfold Filter.parseToken
  rw [ht]
  dsimp only
  split_ifs with he
  · exact ⟨f,rfl⟩
  · obtain ⟨b,hb⟩ := h (by simpa using he)
    have hl : b.length = 20 := of_decide_eq_true (Option.filter_eq_some_iff.mp hb).2
    have hp : Filter.parseAccount token = .ok ⟨b,hl⟩ := parseAccount_ok.mpr hb
    exact ⟨_,bind_ok.mpr ⟨_,hp,rfl⟩⟩

theorem parseTokens_ok {f g : Filter} {segments : List (List Char)}
    (ht : ∀ token ∈ segments, trim token = token)
    (h : segments.foldlM Filter.parseToken f = .ok g) :
    (∀ token ∈ segments, token ≠ [] → ∃ b, accountOf token = some b) ∧
      ∀ b, b ∈ g.accounts ↔
        b ∈ f.accounts ∨ ∃ token ∈ segments, token ≠ [] ∧ accountOf token = some b := by
  induction segments generalizing f with
  | nil =>
    obtain rfl := pure_ok.mp h
    simp
  | cons token segments ih =>
    obtain ⟨k,hk,h⟩ := bind_ok.mp h
    obtain ⟨hall,hmem⟩ := ih (fun t hm => ht t (List.mem_cons_of_mem _ hm)) h
    obtain ⟨hone,hfirst⟩ := parseToken_ok (ht token (by simp)) hk
    refine ⟨List.forall_mem_cons.mpr ⟨hone,hall⟩,fun b => ?_⟩
    rw [hmem, hfirst]
    simp only [List.mem_cons, exists_eq_or_imp, or_assoc]

theorem parseTokens_succeeds (f : Filter) {segments : List (List Char)}
    (ht : ∀ token ∈ segments, trim token = token)
    (h : ∀ token ∈ segments, token ≠ [] → ∃ b, accountOf token = some b) :
    ∃ g, segments.foldlM Filter.parseToken f = .ok g := by
  induction segments generalizing f with
  | nil => exact ⟨f,rfl⟩
  | cons token segments ih =>
    obtain ⟨k,hk⟩ := parseToken_succeeds f (ht token (by simp)) (h token (by simp))
    obtain ⟨g,hg⟩ := ih k (fun t hm => ht t (List.mem_cons_of_mem _ hm))
      (fun t hm => h t (List.mem_cons_of_mem _ hm))
    exact ⟨g,bind_ok.mpr ⟨k,hk,hg⟩⟩

theorem mem_tokens {text : String} {token : List Char} :
    token ∈ tokens text ↔ token ∈ text.toList.splitOnP isSeparator ∧ token ≠ [] := by
  rw [tokens, List.mem_filter, decide_eq_true_eq]

/-- A filter holds the accounts that the tokens of its text name. -/
theorem parse_ok {text : String} {f : Filter} (h : Filter.parse text = .ok f) :
    (∀ token ∈ tokens text, ∃ b, accountOf token = some b) ∧
      ∀ b, b ∈ f.accounts ↔ ∃ token ∈ tokens text, accountOf token = some b := by
  obtain ⟨hall,hmem⟩ := parseTokens_ok (fun _ ht => segment_trim ht) h
  refine ⟨fun token ht => hall token (mem_tokens.mp ht).1 (mem_tokens.mp ht).2,fun b => ?_⟩
  rw [hmem]
  simp only [Filter.empty, List.not_mem_nil, false_or, mem_tokens, and_assoc]

theorem parse_succeeds {text : String} (h : ∀ token ∈ tokens text, ∃ b, accountOf token = some b) :
    ∃ f, Filter.parse text = .ok f :=
  parseTokens_succeeds Filter.empty (fun _ ht => segment_trim ht)
    (fun token ht hne => h token (mem_tokens.mpr ⟨ht,hne⟩))

theorem canonical_eq {f g : Filter} (h : ∀ b, b ∈ f.accounts ↔ b ∈ g.accounts) :
    f.canonical = g.canonical := by
  have hperm : f.accounts.Perm g.accounts := (List.perm_ext_iff_of_nodup f.nodup g.nodup).mpr h
  rw [Filter.canonical, Filter.canonical]
  have hsort : ∀ l : List String, (l.insertionSort (· ≤ ·)).Pairwise (· ≤ ·) :=
    fun l => List.pairwise_insertionSort (· ≤ ·) l
  have hsame : (f.accounts.map hex).insertionSort (· ≤ ·) = (g.accounts.map hex).insertionSort (· ≤ ·) :=
    ((List.perm_insertionSort _ _).trans ((hperm.map hex).trans
      (List.perm_insertionSort _ _).symm)).eq_of_pairwise
      (fun _ _ _ _ => le_antisymm) (hsort _) (hsort _)
  rw [hsame]

theorem digitValue_size {c : Char} {n : ℕ} (h : digitValue c = some n) : c.utf8Size = 1 := by
  have h9 : '9'.toNat = 57 := rfl
  have hf : 'f'.toNat = 102 := rfl
  have hF : 'F'.toNat = 70 := rfl
  have hlt : c.toNat ≤ 127 := by
    simp only [digitValue, le_iff_toNat] at h
    split_ifs at h with h1 h2 h3
    · omega
    · omega
    · omega
  exact Char.utf8Size_eq_one_iff.mpr (UInt32.le_iff_toNat_le.mpr hlt)

theorem decodeChars_size {raw : List Char} {b : Bytes} (h : decodeChars raw = some b) :
    (raw.map Char.utf8Size).sum = 2*b.length := by
  induction raw using decodeChars.induct generalizing b with
  | case1 =>
    obtain rfl := Option.some.inj h
    rfl
  | case2 => cases h
  | case3 c d cs ih =>
    obtain ⟨hi,lo,rest,hc,hd,hr,rfl⟩ := decodeChars_cons h
    simp only [List.map_cons, List.sum_cons, digitValue_size hc, digitValue_size hd, ih hr,
      List.length_cons]
    omega

theorem unhex_iff {text : String} {b : Bytes} : unhex text = .ok b ↔
    ∃ raw, text.toList = '0' :: 'x' :: raw ∧ decodeChars raw = some b := by
  constructor
  · exact unhex_text
  · rintro ⟨raw,hraw,hd⟩
    rw [unhex, hraw]
    refine bind_ok.mpr ⟨(),ensure_ok.mpr ?_,context_ok.mpr hd⟩
    rw [decodeChars_size hd]
    omega

theorem address_token {token : List Char} {t : String} : address (String.ofList token) = .ok t ↔
    (∃ raw, token = '0' :: 'x' :: raw) ∧ ∃ b, accountOf token = some b ∧ t = hex b := by
  simp only [address_ok, unhex_iff, String.toList_ofList]
  constructor
  · rintro ⟨b,⟨raw,rfl,hd⟩,hl,rfl⟩
    exact ⟨⟨raw,rfl⟩,b,Option.filter_eq_some_iff.mpr ⟨hd,decide_eq_true hl⟩,rfl⟩
  · rintro ⟨⟨raw,rfl⟩,b,hb,rfl⟩
    obtain ⟨hd,hl⟩ := Option.filter_eq_some_iff.mp hb
    exact ⟨b,⟨raw,rfl,hd⟩,of_decide_eq_true hl,rfl⟩

theorem mem_keys_insertAll {l : List String} {a : String} :
    a ∈ (SortedMap.empty.insertAll (l.map (fun a => (a,())))).keys ↔ a ∈ l := by
  have ht := SortedMap.insertAll_tops (k := l.map (fun a => (a,()))) (SortedMap.tops_empty (fun _ => 0))
    (List.pairwise_of_forall (fun _ _ => le_refl _))
  rw [SortedMap.mem_keys]
  constructor
  · rintro ⟨u,hu⟩
    obtain ⟨b,hb,he⟩ := List.mem_map.mp ((ht a).1 u hu)
    exact (Prod.mk.inj he).1 ▸ hb
  · intro ha
    obtain ⟨v,hv,-⟩ := (ht a).2 () (List.mem_map.mpr ⟨a,ha,rfl⟩)
    exact ⟨v,hv⟩

theorem canonicalAccounts_ok {text : String} {l : List String}
    (h : canonicalAccounts (.str text) = .ok l) :
    Canonical l ∧ (∀ token ∈ tokens text, (∃ raw, token = '0' :: 'x' :: raw) ∧
      ∃ b, accountOf token = some b) ∧
      ∀ a, a ∈ l ↔ ∃ token ∈ tokens text, ∃ b, accountOf token = some b ∧ a = hex b := by
  obtain ⟨texts,ht,h⟩ := bind_ok.mp h
  obtain rfl := Except.ok.inj ht
  refine ⟨accountSet_canonical h,?_⟩
  obtain ⟨named,hn,h⟩ := bind_ok.mp h
  obtain ⟨_,-,h⟩ := bind_ok.mp h
  obtain rfl := pure_ok.mp h
  have hrel := Timeline.exists_related (mapM_ok.mp hn)
  constructor
  · intro token htoken
    obtain ⟨t,-,ha⟩ := hrel.1 _ (List.mem_map_of_mem htoken)
    obtain ⟨hraw,b,hb,-⟩ := address_token.mp ha
    exact ⟨hraw,b,hb⟩
  · intro a
    rw [mem_keys_insertAll]
    constructor
    · intro ha
      obtain ⟨t,hmem,haddr⟩ := hrel.2 a ha
      obtain ⟨token,htoken,rfl⟩ := List.mem_map.mp hmem
      exact ⟨token,htoken,(address_token.mp haddr).2⟩
    · rintro ⟨token,htoken,b,hb,rfl⟩
      obtain ⟨t,hmem,haddr⟩ := hrel.1 _ (List.mem_map_of_mem htoken)
      obtain ⟨-,c,hc,rfl⟩ := address_token.mp haddr
      obtain rfl := Option.some.inj (hb.symm.trans hc)
      exact hmem

theorem canonicalAccounts_succeeds {text : String} (hne : tokens text ≠ [])
    (h : ∀ token ∈ tokens text, (∃ raw, token = '0' :: 'x' :: raw) ∧ ∃ b, accountOf token = some b) :
    ∃ l, canonicalAccounts (.str text) = .ok l := by
  obtain ⟨named,hn⟩ : ∃ named, ((tokens text).map String.ofList).mapM address = .ok named := by
    refine mapM_succeeds.mpr (fun t ht => ?_)
    obtain ⟨token,htoken,rfl⟩ := List.mem_map.mp ht
    obtain ⟨hraw,b,hb⟩ := h token htoken
    exact ⟨hex b,address_token.mpr ⟨hraw,b,hb,rfl⟩⟩
  refine ⟨_,bind_ok.mpr ⟨_,rfl,bind_ok.mpr ⟨named,hn,bind_ok.mpr ⟨(),ensure_ok.mpr ?_,rfl⟩⟩⟩⟩
  intro hnil
  obtain ⟨token,htoken⟩ := List.exists_mem_of_ne_nil _ hne
  obtain ⟨t,ht,-⟩ := (Timeline.exists_related (mapM_ok.mp hn)).1 _ (List.mem_map_of_mem htoken)
  have := mem_keys_insertAll.mpr ht
  rw [hnil] at this
  cases this

theorem canonical_ext {l m : List String} (hl : Canonical l) (hm : Canonical m)
    (h : ∀ a, a ∈ l ↔ a ∈ m) : l = m := by
  have hperm : l.Perm m := (List.perm_ext_iff_of_nodup
    (hl.sorted.imp (fun h => h.ne)) (hm.sorted.imp (fun h => h.ne))).mpr h
  exact hperm.eq_of_pairwise (fun a b _ _ hab hba => absurd hab hba.asymm) hl.sorted hm.sorted

theorem lower_free {c : Char} (h : IsLowerDigit c) : isSeparator c = false := by
  simp only [IsLowerDigit, le_iff_toNat] at h
  have hrange : (48 ≤ c.toNat ∧ c.toNat ≤ 57) ∨ (97 ≤ c.toNat ∧ c.toNat ≤ 102) := h
  have hcomma : c ≠ ',' := by
    rintro rfl
    have : ','.toNat = 44 := rfl
    omega
  rw [isSeparator, decide_eq_false hcomma, Bool.false_or, isWhitespace]
  simp only [Bool.or_eq_false_iff, Bool.and_eq_false_iff, decide_eq_false_iff_not]
  omega

theorem tokens_canonical {l : List String} (h : ∀ a ∈ l, ∃ b : Bytes, a = hex b) :
    tokens (joinAccounts l) = l.map String.toList := by
  have hlist : ∀ b : Bytes, (hex b).toList = '0' :: 'x' :: encodeChars b := fun b => by
    simp [hex, encode]
  refine tokens_join (fun a ha => ?_) (fun a ha c hc => ?_)
  · obtain ⟨b,rfl⟩ := h a ha
    intro he
    have := hlist b
    rw [he] at this
    cases this
  · obtain ⟨b,rfl⟩ := h a ha
    rw [hlist b] at hc
    rcases List.mem_cons.mp hc with rfl | hc
    · decide
    · rcases List.mem_cons.mp hc with rfl | hc
      · decide
      · exact lower_free (encodeChars_lower hc)

theorem canonical_list {f : Filter} {l : List String} (hl : Canonical l)
    (h : ∀ a, a ∈ f.accounts ↔ hex a ∈ l) : f.canonical = joinAccounts l := by
  have hmem : ∀ t, t ∈ f.accounts.map hex ↔ t ∈ l := by
    intro t
    rw [List.mem_map]
    constructor
    · rintro ⟨a,ha,rfl⟩
      exact (h a).mp ha
    · intro ht
      obtain ⟨a,-,rfl⟩ := hl.address t ht
      exact ⟨a,(h a).mpr ht,rfl⟩
  have hperm : (f.accounts.map hex).Perm l := (List.perm_ext_iff_of_nodup
    (f.nodup.map hex_injective) (hl.sorted.imp (fun h => h.ne))).mpr hmem
  have hsame : (f.accounts.map hex).insertionSort (· ≤ ·) = l :=
    ((List.perm_insertionSort _ _).trans hperm).eq_of_pairwise (fun _ _ _ _ => le_antisymm)
      (List.pairwise_insertionSort (· ≤ ·) _) (hl.sorted.imp (fun h => h.le))
  rw [Filter.canonical, hsame, joinAccounts]

theorem lists_agree {text : String} {l : List String} (h : canonicalAccounts (.str text) = .ok l) :
    ∃ f, Filter.parse text = .ok f ∧ f.canonical = joinAccounts l ∧
      ∀ a, f.matchesAccount a = true ↔ a.length = 20 ∧ hex a ∈ l := by
  obtain ⟨hl,htokens,hmem⟩ := canonicalAccounts_ok h
  obtain ⟨f,hf⟩ := parse_succeeds (fun token ht => (htokens token ht).2)
  have haccounts : ∀ a, a ∈ f.accounts ↔ hex a ∈ l := by
    intro a
    rw [(parse_ok hf).2, hmem]
    constructor
    · rintro ⟨token,ht,ha⟩
      exact ⟨token,ht,a,ha,rfl⟩
    · rintro ⟨token,ht,b,hb,he⟩
      exact ⟨token,ht,hex_injective he ▸ hb⟩
  have hne : f.isEmpty = false := by
    obtain ⟨a,ha⟩ := List.exists_mem_of_ne_nil _ hl.nonempty
    obtain ⟨b,-,rfl⟩ := hl.address a ha
    have hb := (haccounts b).mpr ha
    cases hacc : f.accounts with
    | nil =>
      rw [hacc] at hb
      cases hb
    | cons _ _ => rw [Filter.isEmpty, hacc]; rfl
  refine ⟨f,hf,?_,fun a => ?_⟩
  · exact canonical_list hl haccounts
  · rw [Filter.matches_mem hne, haccounts]
    constructor
    · intro ha
      obtain ⟨b,hb,he⟩ := hl.address _ ha
      exact ⟨hex_injective he ▸ hb,ha⟩
    · exact And.right

theorem native_fixed {l : List String} (h : Canonical l) :
    canonicalAccounts (.str (joinAccounts l)) = .ok l := by
  have htexts : ((tokens (joinAccounts l)).map String.ofList) = l := by
    rw [tokens_canonical (fun a ha => (h.address a ha).imp (fun _ => And.right)), List.map_map]
    simp
  exact bind_ok.mpr ⟨l,congrArg Except.ok htexts,accountSet_self h⟩

theorem native_list {l : List String} (h : Canonical l) :
    canonicalAccounts (.arr (l.map .str)) = .ok l := by
  refine bind_ok.mpr ⟨l,?_,accountSet_self h⟩
  rw [accountValues, mapM_ok, List.forall₂_map_left_iff, List.forall₂_same]
  exact fun a _ => rfl

theorem native_spelling {text text' : String} {l : List String} (hs : SameAccounts text text')
    (h : canonicalAccounts (.str text) = .ok l) : canonicalAccounts (.str text') = .ok l := by
  obtain ⟨hl,htokens,hmem⟩ := canonicalAccounts_ok h
  have hne : tokens text' ≠ [] := by
    obtain ⟨a,ha⟩ := List.exists_mem_of_ne_nil _ hl.nonempty
    obtain ⟨token,ht,-⟩ := (hmem a).mp ha
    obtain ⟨token',ht',-⟩ := hs.forth token ht
    exact List.ne_nil_of_mem ht'
  obtain ⟨m,hm⟩ := canonicalAccounts_succeeds hne (fun token' ht' => by
    obtain ⟨token,ht,hsame⟩ := hs.back token' ht'
    obtain ⟨⟨raw,rfl⟩,b,hb⟩ := htokens token ht
    obtain ⟨c,_,hc,htail,rfl⟩ := List.forall₂_cons_left_iff.mp hsame
    obtain ⟨d,raw',hd,-,rfl⟩ := List.forall₂_cons_left_iff.mp htail
    obtain rfl := same_zero hc
    obtain rfl := same_letter (by decide) hd
    exact ⟨⟨raw',rfl⟩,b,(accountOf_same hsame) ▸ hb⟩)
  obtain ⟨hcanon,-,hmem'⟩ := canonicalAccounts_ok hm
  have hsame : m = l := by
    refine canonical_ext hcanon hl (fun a => ?_)
    rw [hmem, hmem']
    constructor
    · rintro ⟨token',ht',b,hb,rfl⟩
      obtain ⟨token,ht,hsame⟩ := hs.back token' ht'
      exact ⟨token,ht,b,accountOf_same hsame ▸ hb,rfl⟩
    · rintro ⟨token,ht,b,hb,rfl⟩
      obtain ⟨token',ht',hsame⟩ := hs.forth token ht
      exact ⟨token',ht',b,accountOf_same hsame ▸ hb,rfl⟩
  rw [hm, hsame]

theorem mapper_spelling {text text' : String} {f : Filter} (hs : SameAccounts text text')
    (h : Filter.parse text = .ok f) :
    ∃ g, Filter.parse text' = .ok g ∧ g.canonical = f.canonical := by
  obtain ⟨htokens,hmem⟩ := parse_ok h
  obtain ⟨g,hg⟩ := @parse_succeeds text' (fun token' ht' => by
    obtain ⟨token,ht,hsame⟩ := hs.back token' ht'
    obtain ⟨b,hb⟩ := htokens token ht
    exact ⟨b,accountOf_same hsame ▸ hb⟩)
  refine ⟨g,hg,canonical_eq (fun b => ?_)⟩
  rw [(parse_ok hg).2, hmem]
  constructor
  · rintro ⟨token',ht',hb⟩
    obtain ⟨token,ht,hsame⟩ := hs.back token' ht'
    exact ⟨token,ht,accountOf_same hsame ▸ hb⟩
  · rintro ⟨token,ht,hb⟩
    obtain ⟨token',ht',hsame⟩ := hs.forth token ht
    exact ⟨token',ht',accountOf_same hsame ▸ hb⟩

theorem mapper_fixed (f : Filter) :
    ∃ g, Filter.parse f.canonical = .ok g ∧ g.canonical = f.canonical := by
  cases hf : f.isEmpty with
  | true =>
    have hnil : f.accounts = [] := List.isEmpty_iff.mp hf
    have htext : f.canonical = "" := by
      rw [Filter.canonical, hnil]
      rfl
    rw [htext]
    exact ⟨Filter.empty,rfl,rfl⟩
  | false =>
    obtain ⟨l,hl,htext,hin⟩ := canonical_filter f hf
    rw [htext]
    obtain ⟨g,hg,hcanon,-⟩ := lists_agree (native_fixed hl)
    exact ⟨g,hg,hcanon⟩

/-- Both sides read a list of accounts alike: a text that the native side
accepts selects the same accounts in the mapper, both write one text for it
whatever its spelling, read that text back, and the rows carry it. -/
theorem account_lists :
    (∀ text l, canonicalAccounts (.str text) = .ok l →
      (∃ f, Filter.parse text = .ok f ∧ f.canonical = joinAccounts l ∧
        ∀ a, f.matchesAccount a = true ↔ a.length = 20 ∧ hex a ∈ l) ∧
      (∀ block row, project text block = .ok row → row.accounts = joinAccounts l) ∧
      canonicalAccounts (.str (joinAccounts l)) = .ok l ∧
      canonicalAccounts (.arr (l.map .str)) = .ok l ∧
      ∀ text', SameAccounts text text' → canonicalAccounts (.str text') = .ok l) ∧
    ∀ text f, Filter.parse text = .ok f →
      (∃ g, Filter.parse f.canonical = .ok g ∧ g.canonical = f.canonical) ∧
      ∀ text', SameAccounts text text' →
        ∃ g, Filter.parse text' = .ok g ∧ g.canonical = f.canonical := by
  refine ⟨fun text l h => ?_,fun text f h => ⟨mapper_fixed f,fun text' hs => mapper_spelling hs h⟩⟩
  have hl := (canonicalAccounts_ok h).1
  obtain ⟨f,hf,hcanon,hmatches⟩ := lists_agree h
  refine ⟨⟨f,hf,hcanon,hmatches⟩,fun block row hrow => ?_,native_fixed hl,native_list hl,
    fun text' hs => native_spelling hs h⟩
  obtain ⟨-,haccounts,-⟩ := BlockRows.project_made hf hrow
  rw [haccounts, hcanon]

def spelledText : String :=
  " 0xABABABABABABABABABABABABABABABABABABABAB,\n0x0404040404040404040404040404040404040404 "

def spelledList : List String :=
  ["0x0404040404040404040404040404040404040404","0xabababababababababababababababababababab"]

theorem account_lists_sample : canonicalAccounts (.str spelledText) = .ok spelledList ∧
    ∃ f, Filter.parse spelledText = .ok f ∧ f.canonical = joinAccounts spelledList ∧
      canonicalAccounts (.str (joinAccounts spelledList)) = .ok spelledList := by
  have h : canonicalAccounts (.str spelledText) = .ok spelledList := by decide +kernel
  obtain ⟨⟨f,hf,hcanon,-⟩,-,hfixed,-⟩ := account_lists.1 spelledText spelledList h
  exact ⟨h,f,hf,hcanon,hfixed⟩

end EvmState.AccountLists
