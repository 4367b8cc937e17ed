import Mathlib.Algebra.BigOperators.Group.Finset.Basic
import Mathlib.Algebra.Order.BigOperators.Group.Finset
import Mathlib.Data.List.Lex
import EvmState.Paths

/-!
# What the declared directories hold

Nested and repeated roots are dropped by prefix, and an object with several
names is counted at the first of them. What is counted is then the set of
objects below the inputs, whatever their order and overlap.
-/

set_option autoImplicit false

namespace EvmState.Usage
open EvmState.Fallible EvmState.FileTree

section Roots
variable {α : Type} [LinearOrder α]

/-- By the number of components, then component by component. -/
def before (a b : List α) : Bool := a.length < b.length || a.length = b.length && a ≤ b

def dedup : List (List α) → List (List α)
  | [] => []
  | [p] => [p]
  | p::q::rest => if p = q then dedup (q::rest) else p::dedup (q::rest)

def addRoot (result : List (List α)) (path : List α) : List (List α) :=
  if result.any (fun parent => parent.isPrefixOf path) then result else result++[path]

def roots (paths : List (List α)) : List (List α) :=
  (dedup (paths.mergeSort before)).foldl addRoot []

end Roots

abbrev Inode := ℕ × ℕ

structure Metadata where
  kind : Kind
  blocks : ℕ
  len : ℕ

/-- A finite tree whose names lead to objects. Several names may lead to one
object, as long as it is no directory; a directory lists its names in an order
of its own. -/
structure Disk extends Tree where
  places : Finset Place
  inode : Place → Inode
  object : Inode → Metadata
  entries : Place → List Name
  mem_places : ∀ p, p ∈ places ↔ kind p ≠ none
  kind_object : ∀ p k, kind p = some k → (object (inode p)).kind = k
  dir_inode : ∀ p q, kind p = some .dir → kind q = some .dir → inode p = inode q → p = q
  entries_nodup : ∀ p, (entries p).Nodup
  mem_entries : ∀ p n, n ∈ entries p ↔ kind (p++[n]) ≠ none

structure Totals where
  seen : Finset Inode
  allocated : ℕ
  logical : ℕ
  files : ℕ

section Usage
variable (dataDirectory : Bool) (disk : Disk)

def visit (t : Totals) (path : Place) : Except String (Totals × Bool) := do
  let inode := disk.inode path
  let metadata := disk.object inode
  ensure (dataDirectory = true ∨ metadata.kind.isSymlink = false)
    "capacity roots contain a symlink; declare its target as a separate root"
  if inode ∈ t.seen then return (t,false)
  ensure (metadata.blocks*512 < 2^64) "allocated byte count overflow"
  let allocated := t.allocated+metadata.blocks*512
  ensure (allocated < 2^64) "allocated byte count overflow"
  if metadata.kind = .dir then
    return ({ t with seen := insert inode t.seen, allocated := allocated },true)
  if metadata.kind = .file ∨ dataDirectory = true then
    let logical := t.logical+metadata.len
    ensure (logical < 2^64) "logical byte count overflow"
    return (⟨insert inode t.seen,allocated,logical,t.files+1⟩,false)
  else .error "capacity roots contain an unsupported special file"

/-- The open directories, each with the entries it has still to list, the
innermost first. Every round lists an entry or closes a directory. -/
def scan : ℕ → List (Place × List Name) → Totals → Except String Totals
  | _, [], t => .ok t
  | 0, _::_, _ => .error "directory listing does not end"
  | fuel+1, (_,[])::directories, t => scan fuel directories t
  | fuel+1, (directory,name::names)::directories, t => do
    let path := directory++[name]
    let (t,opened) ← visit dataDirectory disk t path
    if opened then scan fuel ((path,disk.entries path)::(directory,names)::directories) t
    else scan fuel ((directory,names)::directories) t

def scanRoot (t : Totals) (root : Place) : Except String Totals := do
  let (t,opened) ← visit dataDirectory disk t root
  if opened then scan dataDirectory disk (2*disk.places.card+1) [(root,disk.entries root)] t
  else return t

def usage (paths : List (List Part)) : Except String (ℕ × ℕ × ℕ) := do
  let places ← paths.mapM (fun path =>
    (canonicalize disk.toTree path).mapError Paths.ErrorKind.text)
  let t ← (roots places).foldlM (scanRoot dataDirectory disk) ⟨∅,0,0,0⟩
  return (t.allocated,t.logical,t.files)

end Usage

def localUsage (disk : Disk) (paths : List (List Part)) : Except String (ℕ × ℕ × ℕ) :=
  usage false disk paths

def dataUsage (disk : Disk) (paths : List (List Part)) : Except String (ℕ × ℕ × ℕ) :=
  usage true disk paths

section Antichain
variable {α : Type} [LinearOrder α]

/-- None of them lies below another. -/
def Antichain (paths : List (List α)) : Prop := paths.Pairwise (fun a b => ¬a <+: b ∧ ¬b <+: a)

theorem before_trans (a b c : List α) (h : before a b = true) (h' : before b c = true) :
    before a c = true := by
  simp only [before,Bool.or_eq_true,decide_eq_true_eq,Bool.and_eq_true] at *
  rcases h with h | ⟨h,hle⟩
  · rcases h' with h' | ⟨h',-⟩
    · exact .inl (by omega)
    · exact .inl (by omega)
  · rcases h' with h' | ⟨h',hle'⟩
    · exact .inl (by omega)
    · exact .inr ⟨by omega,le_trans hle hle'⟩

theorem before_total (a b : List α) : (before a b || before b a) = true := by
  simp only [before,Bool.or_eq_true,decide_eq_true_eq,Bool.and_eq_true]
  rcases Nat.lt_trichotomy a.length b.length with h | h | h
  · exact .inl (.inl h)
  · rcases le_total a b with hle | hle
    · exact .inl (.inr ⟨h,hle⟩)
    · exact .inr (.inr ⟨h.symm,hle⟩)
  · exact .inr (.inl h)

theorem mem_dedup (p : List α) (l : List (List α)) : p ∈ dedup l ↔ p ∈ l := by
  induction l using dedup.induct with
  | case1 => simp [dedup]
  | case2 => simp [dedup]
  | case3 q rest ih =>
    rw [dedup,if_pos rfl,ih]
    simp
  | case4 q r rest h ih =>
    rw [dedup,if_neg h,List.mem_cons,ih,List.mem_cons (b := q)]

theorem dedup_sublist (l : List (List α)) : (dedup l).Sublist l := by
  induction l using dedup.induct with
  | case1 => exact List.Sublist.refl _
  | case2 => exact List.Sublist.refl _
  | case3 q rest ih =>
    rw [dedup,if_pos rfl]
    exact ih.cons q
  | case4 q r rest h ih =>
    rw [dedup,if_neg h]
    exact ih.cons_cons q

theorem prefix_of_before {a b : List α} (h : before a b = true) (hp : b <+: a) : a = b := by
  have hle := hp.length_le
  simp only [before,Bool.or_eq_true,decide_eq_true_eq,Bool.and_eq_true] at h
  exact (hp.eq_of_length (by omega)).symm

/-- Adding the paths in order of their length keeps the roots apart, and every
path has a root above it. -/
theorem foldl_addRoot (l result : List (List α)) (ha : Antichain result)
    (hs : (result++l).Pairwise (fun a b => before a b = true)) :
    Antichain (l.foldl addRoot result) ∧
      (∀ p, p ∈ result ∨ p ∈ l → ∃ r ∈ l.foldl addRoot result, r <+: p) ∧
      ∀ r ∈ l.foldl addRoot result, r ∈ result ∨ r ∈ l := by
  induction l generalizing result with
  | nil => exact ⟨ha,fun p hp => ⟨p,by simpa using hp,List.prefix_rfl⟩,fun r hr => .inl hr⟩
  | cons path l ih =>
    rw [List.foldl_cons]
    by_cases hc : result.any (fun parent => parent.isPrefixOf path) = true
    · have hadd : addRoot result path = result := if_pos hc
      rw [hadd]
      obtain ⟨h1,h2,h3⟩ := ih result ha (hs.sublist ((List.sublist_cons_self path l).append_left result))
      obtain ⟨parent,hm,hp⟩ := List.any_eq_true.mp hc
      rw [List.isPrefixOf_iff_prefix] at hp
      refine ⟨h1,fun p hmem => ?_,fun r hr => ?_⟩
      · rcases hmem with hr | hl
        · exact h2 p (.inl hr)
        · rcases List.mem_cons.mp hl with rfl | hl
          · obtain ⟨r,hr,hrp⟩ := h2 parent (.inl hm)
            exact ⟨r,hr,hrp.trans hp⟩
          · exact h2 p (.inr hl)
      · rcases h3 r hr with h | h
        · exact .inl h
        · exact .inr (List.mem_cons_of_mem _ h)
    · have hadd : addRoot result path = result++[path] := if_neg hc
      rw [hadd]
      have hnew : Antichain (result++[path]) := by
        refine List.pairwise_append.mpr ⟨ha,List.pairwise_singleton _ _,fun r hr p hp => ?_⟩
        obtain rfl := List.mem_singleton.mp hp
        have hnot : ¬r <+: p := fun h => hc (List.any_eq_true.mpr
          ⟨r,hr,List.isPrefixOf_iff_prefix.mpr h⟩)
        refine ⟨hnot,fun h => ?_⟩
        have hb := (List.pairwise_append.mp hs).2.2 r hr p (List.mem_cons_self)
        obtain rfl := prefix_of_before hb h
        exact hnot List.prefix_rfl
      obtain ⟨h1,h2,h3⟩ := ih (result++[path]) hnew (by rwa [List.append_assoc])
      refine ⟨h1,fun p hmem => h2 p ?_,fun r hr => ?_⟩
      · rcases hmem with hr | hl
        · exact .inl (List.mem_append_left _ hr)
        · rcases List.mem_cons.mp hl with rfl | hl
          · exact .inl (by simp)
          · exact .inr hl
      · rcases h3 r hr with h | h
        · rcases List.mem_append.mp h with h | h
          · exact .inl h
          · exact .inr (by simp_all)
        · exact .inr (List.mem_cons_of_mem _ h)

theorem roots_spec (paths : List (List α)) : Antichain (roots paths) ∧
    (∀ p ∈ paths, ∃ r ∈ roots paths, r <+: p) ∧ ∀ r ∈ roots paths, r ∈ paths := by
  have hsorted : (dedup (paths.mergeSort before)).Pairwise (fun a b => before a b = true) :=
    (List.pairwise_mergeSort before_trans before_total paths).sublist (dedup_sublist _)
  obtain ⟨h1,h2,h3⟩ := foldl_addRoot _ [] List.Pairwise.nil hsorted
  have hmem : ∀ p, p ∈ dedup (paths.mergeSort before) ↔ p ∈ paths := fun p => by
    rw [mem_dedup,List.mem_mergeSort]
  refine ⟨h1,fun p hp => h2 p (.inr ((hmem p).mpr hp)),fun r hr => ?_⟩
  rcases h3 r hr with h | h
  · cases h
  · exact (hmem r).mp h

end Antichain

section Objects
variable (dataDirectory : Bool) (disk : Disk)

def content (objects : Finset Inode) : Finset Inode :=
  objects.filter (fun i => (disk.object i).kind ≠ .dir)

def totals (objects : Finset Inode) : Totals where
  seen := objects
  allocated := ∑ i ∈ objects, (disk.object i).blocks*512
  logical := ∑ i ∈ content disk objects, (disk.object i).len
  files := (content disk objects).card

/-- The objects that can be accounted: outside data directories no link and no
special file, and sums of 64 bits. -/
structure Accountable (objects : Finset Inode) : Prop where
  kinds : dataDirectory = true ∨
    ∀ i ∈ objects, (disk.object i).kind = .dir ∨ (disk.object i).kind = .file
  allocated : (totals disk objects).allocated < 2^64
  logical : (totals disk objects).logical < 2^64

def below (paths : List Place) : Finset Place :=
  disk.places.filter (fun p => ∃ h ∈ paths, h <+: p)

def objects (places : Finset Place) : Finset Inode := places.image disk.inode

end Objects

section Visits
variable {dataDirectory : Bool} {disk : Disk}

theorem accountable_empty : Accountable dataDirectory disk ∅ :=
  ⟨.inr (fun i hi => absurd hi (Finset.notMem_empty i)),by simp [totals],by simp [totals,content]⟩

theorem accountable_subset {small large : Finset Inode} (h : Accountable dataDirectory disk large)
    (hs : small ⊆ large) : Accountable dataDirectory disk small where
  kinds := h.kinds.imp_right (fun hk i hi => hk i (hs hi))
  allocated := lt_of_le_of_lt (Finset.sum_le_sum_of_subset hs) h.allocated
  logical := lt_of_le_of_lt (Finset.sum_le_sum_of_subset (Finset.filter_subset_filter _ hs)) h.logical

theorem totals_dir {seen : Finset Inode} {i : Inode} (hi : i ∉ seen)
    (hk : (disk.object i).kind = .dir) : totals disk (insert i seen) =
      { totals disk seen with
        seen := insert i seen
        allocated := (totals disk seen).allocated+(disk.object i).blocks*512 } := by
  have hc : content disk (insert i seen) = content disk seen := by
    rw [content,Finset.filter_insert,if_neg (by simp [hk])]
    rfl
  simp only [totals,hc,Finset.sum_insert hi,Nat.add_comm]

theorem totals_content {seen : Finset Inode} {i : Inode} (hi : i ∉ seen)
    (hk : (disk.object i).kind ≠ .dir) : totals disk (insert i seen) =
      ⟨insert i seen,(totals disk seen).allocated+(disk.object i).blocks*512,
        (totals disk seen).logical+(disk.object i).len,(totals disk seen).files+1⟩ := by
  have hc : content disk (insert i seen) = insert i (content disk seen) := by
    rw [content,Finset.filter_insert,if_pos hk]
    rfl
  have hn : i ∉ content disk seen := fun h => hi (Finset.mem_filter.mp h).1
  simp only [totals,hc,Finset.sum_insert hi,Finset.sum_insert hn,Finset.card_insert_of_notMem hn,
    Nat.add_comm]

theorem accountable_insert {seen : Finset Inode} (h : Accountable dataDirectory disk seen)
    (i : Inode) : Accountable dataDirectory disk (insert i seen) ↔
      (dataDirectory = true ∨ (disk.object i).kind = .dir ∨ (disk.object i).kind = .file) ∧
      (totals disk (insert i seen)).allocated < 2^64 ∧
      (totals disk (insert i seen)).logical < 2^64 := by
  constructor
  · exact fun h' => ⟨h'.kinds.imp_right (fun hk => hk i (Finset.mem_insert_self i seen)),
      h'.allocated,h'.logical⟩
  · rintro ⟨hk,ha,hl⟩
    refine ⟨?_,ha,hl⟩
    rcases hk with hd | hk
    · exact .inl hd
    · refine h.kinds.imp_right (fun hs j hj => ?_)
      rcases Finset.mem_insert.mp hj with rfl | hj
      · exact hk
      · exact hs j hj

theorem visit_totals {seen : Finset Inode} (h : Accountable dataDirectory disk seen) (p : Place)
    (t : Totals) (opened : Bool) :
    visit dataDirectory disk (totals disk seen) p = .ok (t,opened) ↔
      Accountable dataDirectory disk (insert (disk.inode p) seen) ∧
      t = totals disk (insert (disk.inode p) seen) ∧
      opened = (decide (disk.inode p ∉ seen) && decide ((disk.object (disk.inode p)).kind = .dir)) := by
  have hseen : (totals disk seen).seen = seen := rfl
  unfold visit
  simp only [hseen]
  generalize disk.inode p = i
  by_cases hi : i ∈ seen
  · have hens : dataDirectory = true ∨ (disk.object i).kind.isSymlink = false := by
      refine h.kinds.imp_right (fun hk => ?_)
      rcases hk i hi with hk | hk
      · rw [hk]; rfl
      · rw [hk]; rfl
    rw [Finset.insert_eq_of_mem hi]
    constructor
    · intro he
      obtain ⟨_,-,he⟩ := bind_ok.mp he
      rw [if_pos hi] at he
      cases he
      exact ⟨h,rfl,by simp [hi]⟩
    · rintro ⟨-,rfl,rfl⟩
      refine bind_ok.mpr ⟨(),ensure_ok.mpr hens,?_⟩
      rw [if_pos hi]
      simp [hi,pure,Except.pure]
  · rw [accountable_insert h]
    by_cases hd : (disk.object i).kind = .dir
    · rw [totals_dir hi hd]
      constructor
      · intro he
        obtain ⟨_,-,he⟩ := bind_ok.mp he
        rw [if_neg hi] at he
        obtain ⟨_,-,he⟩ := bind_ok.mp he
        obtain ⟨_,ha,he⟩ := bind_ok.mp he
        rw [if_pos hd] at he
        cases he
        exact ⟨⟨.inr (.inl hd),ensure_ok.mp ha,h.logical⟩,rfl,by simp [hi,hd]⟩
      · rintro ⟨⟨-,ha,-⟩,rfl,rfl⟩
        refine bind_ok.mpr ⟨(),ensure_ok.mpr (.inr (by rw [hd]; rfl)),?_⟩
        rw [if_neg hi]
        refine bind_ok.mpr ⟨(),ensure_ok.mpr (by simp only at ha; omega),?_⟩
        refine bind_ok.mpr ⟨(),ensure_ok.mpr ha,?_⟩
        rw [if_pos hd]
        simp [hi,hd,pure,Except.pure]
    · rw [totals_content hi hd]
      constructor
      · intro he
        obtain ⟨_,-,he⟩ := bind_ok.mp he
        rw [if_neg hi] at he
        obtain ⟨_,-,he⟩ := bind_ok.mp he
        obtain ⟨_,ha,he⟩ := bind_ok.mp he
        rw [if_neg hd] at he
        split_ifs at he with hk
        obtain ⟨_,hl,he⟩ := bind_ok.mp he
        cases he
        exact ⟨⟨hk.symm.imp_right .inr,ensure_ok.mp ha,ensure_ok.mp hl⟩,rfl,by simp [hd]⟩
      · rintro ⟨⟨hk,ha,hl⟩,rfl,rfl⟩
        have hk' : (disk.object i).kind = .file ∨ dataDirectory = true :=
          (hk.imp_right (fun h => h.resolve_left hd)).symm
        have hens : dataDirectory = true ∨ (disk.object i).kind.isSymlink = false :=
          hk'.symm.imp_right (fun h => by rw [h]; rfl)
        refine bind_ok.mpr ⟨(),ensure_ok.mpr hens,?_⟩
        rw [if_neg hi]
        refine bind_ok.mpr ⟨(),ensure_ok.mpr (by simp only at ha; omega),?_⟩
        refine bind_ok.mpr ⟨(),ensure_ok.mpr ha,?_⟩
        rw [if_neg hd,if_pos hk']
        refine bind_ok.mpr ⟨(),ensure_ok.mpr hl,?_⟩
        simp [hd,pure,Except.pure]

theorem mem_below {paths : List Place} {p : Place} :
    p ∈ below disk paths ↔ disk.kind p ≠ none ∧ ∃ h ∈ paths, h <+: p := by
  rw [below,Finset.mem_filter,disk.mem_places]

theorem kind_above (p : Place) (n : Name) (rest : Place) (h : disk.kind (p++n::rest) ≠ none) :
    disk.kind p = some .dir := by
  induction rest using List.reverseRecOn with
  | nil => exact disk.parent p n h
  | append_singleton rest m ih =>
    rw [← List.cons_append,← List.append_assoc] at h
    exact ih (by rw [disk.parent _ _ h]; simp)

theorem prefix_cases {p q : Place} (h : p <+: q) (hq : disk.kind q ≠ none) :
    p = q ∨ disk.kind p = some .dir ∧ ∃ n, disk.kind (p++[n]) ≠ none ∧ p++[n] <+: q := by
  obtain ⟨rest,rfl⟩ := h
  cases rest with
  | nil => exact .inl (List.append_nil p).symm
  | cons n rest =>
    refine .inr ⟨kind_above p n rest hq,n,?_,rest,by simp⟩
    cases rest with
    | nil => exact hq
    | cons m rest =>
      rw [List.append_cons] at hq
      rw [kind_above _ m rest hq]
      simp

def children (disk : Disk) (p : Place) : List Place := (disk.entries p).map (fun n => p++[n])

theorem mem_children {p q : Place} :
    q ∈ children disk p ↔ ∃ n, disk.kind (p++[n]) ≠ none ∧ p++[n] = q := by
  simp only [children,List.mem_map,disk.mem_entries]

theorem below_cons_content {p : Place} (he : disk.kind p ≠ none) (hd : disk.kind p ≠ some .dir)
    (rest : List Place) : below disk (p::rest) = insert p (below disk rest) := by
  ext q
  rw [Finset.mem_insert,mem_below,mem_below]
  constructor
  · rintro ⟨hq,h,hm,hp⟩
    rcases List.mem_cons.mp hm with rfl | hm
    · rcases prefix_cases hp hq with h | h
      · exact .inl h.symm
      · exact absurd h.1 hd
    · exact .inr ⟨hq,h,hm,hp⟩
  · rintro (rfl | ⟨hq,h,hm,hp⟩)
    · exact ⟨he,q,List.mem_cons_self,List.prefix_rfl⟩
    · exact ⟨hq,h,List.mem_cons_of_mem _ hm,hp⟩

theorem below_cons_dir {p : Place} (hd : disk.kind p = some .dir) (rest : List Place) :
    below disk (p::rest) = insert p (below disk (children disk p++rest)) := by
  ext q
  rw [Finset.mem_insert,mem_below,mem_below]
  constructor
  · rintro ⟨hq,h,hm,hp⟩
    rcases List.mem_cons.mp hm with rfl | hm
    · rcases prefix_cases hp hq with h' | ⟨-,n,hn,hp⟩
      · exact .inl h'.symm
      · exact .inr ⟨hq,h++[n],List.mem_append_left _ (mem_children.mpr ⟨n,hn,rfl⟩),hp⟩
    · exact .inr ⟨hq,h,List.mem_append_right _ hm,hp⟩
  · rintro (rfl | ⟨hq,h,hm,hp⟩)
    · exact ⟨by rw [hd]; simp,q,List.mem_cons_self,List.prefix_rfl⟩
    · rcases List.mem_append.mp hm with hm | hm
      · obtain ⟨n,-,rfl⟩ := mem_children.mp hm
        exact ⟨hq,p,List.mem_cons_self,(List.prefix_append p [n]).trans hp⟩
      · exact ⟨hq,h,List.mem_cons_of_mem _ hm,hp⟩

theorem antichain_children {p : Place} {rest : List Place} (h : Antichain (p::rest)) :
    Antichain (children disk p++rest) := by
  obtain ⟨hp,hr⟩ := List.pairwise_cons.mp h
  refine List.pairwise_append.mpr ⟨?_,hr,fun q hq r hm => ?_⟩
  · refine List.pairwise_map.mpr ((disk.entries_nodup p).imp fun {m n} hne => ?_)
    have hlen : (p++[m]).length = (p++[n]).length := by simp
    exact ⟨fun h => hne (by simpa using h.eq_of_length hlen),
      fun h => hne (by simpa using (h.eq_of_length hlen.symm).symm)⟩
  · obtain ⟨n,-,rfl⟩ := mem_children.mp hq
    obtain ⟨hpr,hrp⟩ := hp r hm
    refine ⟨fun h => hpr ((List.prefix_append p [n]).trans h),fun h => ?_⟩
    rcases List.prefix_concat_iff.mp h with rfl | h
    · exact hpr (List.prefix_append p [n])
    · exact hrp h

theorem notMem_below {p : Place} {rest : List Place} (h : Antichain (p::rest)) :
    p ∉ below disk rest := by
  intro hm
  obtain ⟨-,q,hq,hp⟩ := mem_below.mp hm
  exact ((List.pairwise_cons.mp h).1 q hq).2 hp

theorem notMem_below_children {p : Place} {rest : List Place} (h : Antichain (p::rest)) :
    p ∉ below disk (children disk p++rest) := by
  intro hm
  obtain ⟨hk,q,hq,hp⟩ := mem_below.mp hm
  rcases List.mem_append.mp hq with hq | hq
  · obtain ⟨n,-,rfl⟩ := mem_children.mp hq
    have := hp.length_le
    simp at this
  · exact notMem_below h (mem_below.mpr ⟨hk,q,hq,hp⟩)

theorem dir_unseen {visited : Finset Place} {p : Place} (hv : visited ⊆ disk.places)
    (hk : disk.kind p = some .dir) (hp : p ∉ visited) : disk.inode p ∉ objects disk visited := by
  intro hm
  obtain ⟨q,hq,hi⟩ := Finset.mem_image.mp hm
  obtain ⟨k,hkq⟩ := Option.ne_none_iff_exists'.mp ((disk.mem_places q).mp (hv hq))
  have hdir : k = .dir := by
    rw [← disk.kind_object q k hkq,hi,disk.kind_object p _ hk]
  exact hp (disk.dir_inode q p (hkq.trans (congrArg some hdir)) hk hi ▸ hq)

/-- A visit and what follows it, when what follows accounts for a set of
places with this one. -/
theorem visit_bind {visited all : Finset Place} {p : Place} {t : Totals}
    (ha : Accountable dataDirectory disk (objects disk visited)) (hall : insert p visited ⊆ all)
    (k : Totals × Bool → Except String Totals)
    (hk : Accountable dataDirectory disk (objects disk (insert p visited)) →
      (k (totals disk (objects disk (insert p visited)),
          decide (disk.inode p ∉ objects disk visited) &&
            decide ((disk.object (disk.inode p)).kind = .dir)) = .ok t ↔
        Accountable dataDirectory disk (objects disk all) ∧ t = totals disk (objects disk all))) :
    (visit dataDirectory disk (totals disk (objects disk visited)) p >>= k) = .ok t ↔
      Accountable dataDirectory disk (objects disk all) ∧ t = totals disk (objects disk all) := by
  have hins : insert (disk.inode p) (objects disk visited) = objects disk (insert p visited) :=
    (Finset.image_insert _ _ _).symm
  rw [bind_ok]
  constructor
  · rintro ⟨⟨t',opened⟩,hv,hr⟩
    obtain ⟨ha',rfl,rfl⟩ := (visit_totals ha p t' opened).mp hv
    rw [hins] at ha' hr
    exact (hk ha').mp hr
  · rintro ⟨hall',rfl⟩
    have ha' := accountable_subset hall' (Finset.image_subset_image hall)
    refine ⟨_,(visit_totals ha p _ _).mpr ⟨by rwa [hins],rfl,rfl⟩,?_⟩
    rw [hins]
    exact (hk ha').mpr ⟨hall',rfl⟩

def heads (stack : List (Place × List Name)) : List Place :=
  stack.flatMap (fun directory => directory.2.map (fun name => directory.1++[name]))

theorem objects_kind {p : Place} (he : disk.kind p ≠ none) :
    (disk.object (disk.inode p)).kind = .dir ↔ disk.kind p = some .dir := by
  obtain ⟨k,hk⟩ := Option.ne_none_iff_exists'.mp he
  rw [disk.kind_object p k hk,hk,Option.some.injEq]

/-- The open directories are listed to their ends, and what is below them is
counted. -/
theorem scan_totals (fuel : ℕ) (stack : List (Place × List Name)) (visited : Finset Place)
    (hv : visited ⊆ disk.places) (hh : Antichain (heads stack))
    (he : ∀ h ∈ heads stack, disk.kind h ≠ none)
    (hd : Disjoint visited (below disk (heads stack)))
    (hf : 2*(below disk (heads stack)).card+stack.length ≤ fuel)
    (ha : Accountable dataDirectory disk (objects disk visited)) (t : Totals) :
    scan dataDirectory disk fuel stack (totals disk (objects disk visited)) = .ok t ↔
      Accountable dataDirectory disk (objects disk (visited ∪ below disk (heads stack))) ∧
      t = totals disk (objects disk (visited ∪ below disk (heads stack))) := by
  induction fuel generalizing stack visited with
  | zero =>
    cases stack with
    | nil =>
      have hb : below disk (heads []) = ∅ := by
        ext p
        simp [mem_below,heads]
      rw [hb,Finset.union_empty,scan,Except.ok.injEq]
      exact ⟨fun h => ⟨ha,h.symm⟩,fun h => h.2.symm⟩
    | cons => simp at hf
  | succ fuel ih =>
    cases stack with
    | nil =>
      have hb : below disk (heads []) = ∅ := by
        ext p
        simp [mem_below,heads]
      rw [hb,Finset.union_empty,scan,Except.ok.injEq]
      exact ⟨fun h => ⟨ha,h.symm⟩,fun h => h.2.symm⟩
    | cons directory stack =>
      obtain ⟨d,names⟩ := directory
      cases names with
      | nil =>
        have hnone : heads ((d,[])::stack) = heads stack := rfl
        rw [hnone,List.length_cons] at hf
        rw [scan]
        exact ih stack visited hv hh he hd (by omega) ha
      | cons n names =>
        have hcons : heads ((d,n::names)::stack) = (d++[n])::heads ((d,names)::stack) := rfl
        rw [hcons] at hh he hd hf ⊢
        generalize hp : d++[n] = p at *
        have hkp : disk.kind p ≠ none := he p List.mem_cons_self
        have hself : p ∈ below disk (p::heads ((d,names)::stack)) :=
          mem_below.mpr ⟨hkp,p,List.mem_cons_self,List.prefix_rfl⟩
        have hnew : p ∉ visited := fun h => Finset.disjoint_left.mp hd h hself
        have hv' : insert p visited ⊆ disk.places :=
          Finset.insert_subset ((disk.mem_places p).mpr hkp) hv
        have hall : insert p visited ⊆ visited ∪ below disk (p::heads ((d,names)::stack)) :=
          Finset.insert_subset (Finset.mem_union_right _ hself) Finset.subset_union_left
        rw [scan,hp]
        refine visit_bind ha hall _ (fun ha' => ?_)
        by_cases hk : disk.kind p = some .dir
        · -- the directory is opened on top of the others
          have hseen := dir_unseen hv hk hnew
          have hopen : heads ((p,disk.entries p)::(d,names)::stack) =
              children disk p++heads ((d,names)::stack) := rfl
          have hb := below_cons_dir hk (heads ((d,names)::stack))
          have hnot := @notMem_below_children disk _ _ hh
          rw [hb,Finset.card_insert_of_notMem hnot] at hf
          rw [hb] at hd
          rw [hb,Finset.union_insert,← Finset.insert_union,← hopen]
          simp only [hseen,not_false_eq_true,decide_true,(objects_kind hkp).mpr hk,Bool.and_self,if_true]
          refine ih _ (insert p visited) hv' ?_ ?_ ?_ ?_ ha'
          · exact antichain_children hh
          · intro h hm
            rcases List.mem_append.mp hm with hm | hm
            · obtain ⟨m,hkm,rfl⟩ := mem_children.mp hm
              exact hkm
            · exact he h (List.mem_cons_of_mem _ hm)
          · exact Finset.disjoint_insert_left.mpr ⟨hnot,(Finset.disjoint_insert_right.mp hd).2⟩
          · rw [hopen]
            simp only [List.length_cons] at hf ⊢
            omega
        · have hb := below_cons_content hkp hk (heads ((d,names)::stack))
          have hnot := @notMem_below disk _ _ hh
          rw [hb,Finset.card_insert_of_notMem hnot] at hf
          rw [hb] at hd
          rw [hb,Finset.union_insert,← Finset.insert_union]
          have hobj : ¬(disk.object (disk.inode p)).kind = .dir := fun h => hk ((objects_kind hkp).mp h)
          simp only [hobj,decide_false,Bool.and_false,Bool.false_eq_true,if_false]
          refine ih _ (insert p visited) hv' (List.pairwise_cons.mp hh).2
            (fun h hm => he h (List.mem_cons_of_mem _ hm)) ?_ ?_ ha'
          · exact Finset.disjoint_insert_left.mpr ⟨hnot,(Finset.disjoint_insert_right.mp hd).2⟩
          · simp only [List.length_cons] at hf ⊢
            omega

theorem scanRoot_totals {visited : Finset Place} {root : Place} (hv : visited ⊆ disk.places)
    (he : disk.kind root ≠ none) (hd : Disjoint visited (below disk [root]))
    (ha : Accountable dataDirectory disk (objects disk visited)) (t : Totals) :
    scanRoot dataDirectory disk (totals disk (objects disk visited)) root = .ok t ↔
      Accountable dataDirectory disk (objects disk (visited ∪ below disk [root])) ∧
      t = totals disk (objects disk (visited ∪ below disk [root])) := by
  have hself : root ∈ below disk [root] := mem_below.mpr ⟨he,root,List.mem_cons_self,List.prefix_rfl⟩
  have hnew : root ∉ visited := fun h => Finset.disjoint_left.mp hd h hself
  have hv' : insert root visited ⊆ disk.places := Finset.insert_subset ((disk.mem_places root).mpr he) hv
  have hall : insert root visited ⊆ visited ∪ below disk [root] :=
    Finset.insert_subset (Finset.mem_union_right _ hself) Finset.subset_union_left
  have hone : Antichain [root] := List.pairwise_singleton _ _
  unfold scanRoot
  refine visit_bind ha hall _ (fun ha' => ?_)
  by_cases hk : disk.kind root = some .dir
  · have hb := below_cons_dir hk []
    have hnot := @notMem_below_children disk _ _ hone
    have hopen : heads [(root,disk.entries root)] = children disk root++[] := rfl
    rw [hb] at hd
    rw [hb,Finset.union_insert,← Finset.insert_union,← hopen]
    simp only [dir_unseen hv hk hnew,not_false_eq_true,decide_true,(objects_kind he).mpr hk,
      Bool.and_self,if_true]
    refine scan_totals _ [(root,disk.entries root)] (insert root visited) hv'
      (antichain_children hone) ?_ ?_ ?_ ha' t
    · intro h hm
      rw [hopen,List.append_nil] at hm
      obtain ⟨m,hkm,rfl⟩ := mem_children.mp hm
      exact hkm
    · exact Finset.disjoint_insert_left.mpr ⟨hnot,(Finset.disjoint_insert_right.mp hd).2⟩
    · have := Finset.card_le_card (Finset.filter_subset (fun p => ∃ h ∈ heads [(root,disk.entries root)],
        h <+: p) disk.places)
      have : (below disk (heads [(root,disk.entries root)])).card ≤ disk.places.card := this
      simp only [List.length_cons,List.length_nil]
      omega
  · have hb : below disk [root] = {root} := by
      rw [below_cons_content he hk]
      ext p
      simp [mem_below]
    have hobj : ¬(disk.object (disk.inode root)).kind = .dir := fun h => hk ((objects_kind he).mp h)
    rw [hb,Finset.union_comm,← Finset.insert_eq]
    simp only [hobj,decide_false,Bool.and_false,Bool.false_eq_true,if_false,pure_ok]
    exact ⟨fun h => ⟨ha',h.symm⟩,fun h => h.2.symm⟩

theorem below_cons (r : Place) (rs : List Place) :
    below disk (r::rs) = below disk [r] ∪ below disk rs := by
  ext p
  simp only [Finset.mem_union,mem_below,List.mem_cons,List.not_mem_nil,or_false,exists_eq_or_imp,
    exists_eq_left]
  tauto

theorem foldlM_scanRoot (rs : List Place) (visited : Finset Place) (hv : visited ⊆ disk.places)
    (hh : Antichain rs) (he : ∀ r ∈ rs, disk.kind r ≠ none)
    (hd : Disjoint visited (below disk rs))
    (ha : Accountable dataDirectory disk (objects disk visited)) (t : Totals) :
    rs.foldlM (scanRoot dataDirectory disk) (totals disk (objects disk visited)) = .ok t ↔
      Accountable dataDirectory disk (objects disk (visited ∪ below disk rs)) ∧
      t = totals disk (objects disk (visited ∪ below disk rs)) := by
  induction rs generalizing visited with
  | nil =>
    have hb : below disk [] = ∅ := by
      ext p
      simp [mem_below]
    rw [hb,Finset.union_empty,List.foldlM_nil,pure_ok]
    exact ⟨fun h => ⟨ha,h.symm⟩,fun h => h.2.symm⟩
  | cons r rs ih =>
    obtain ⟨hr,hrs⟩ := List.pairwise_cons.mp hh
    have hb := @below_cons disk r rs
    rw [hb] at hd ⊢
    obtain ⟨hd1,hd2⟩ := Finset.disjoint_union_right.mp hd
    -- what lies below two roots would make one of them a prefix of the other
    have hapart : Disjoint (below disk [r]) (below disk rs) := by
      refine Finset.disjoint_left.mpr (fun p hp hp' => ?_)
      obtain ⟨-,q,hq,hqp⟩ := mem_below.mp hp
      obtain ⟨-,q',hq',hqp'⟩ := mem_below.mp hp'
      obtain rfl := List.mem_singleton.mp hq
      rcases List.prefix_or_prefix_of_prefix hqp hqp' with h | h
      · exact (hr q' hq').1 h
      · exact (hr q' hq').2 h
    have hv' : visited ∪ below disk [r] ⊆ disk.places :=
      Finset.union_subset hv (Finset.filter_subset _ _)
    have hroot := fun t => scanRoot_totals hv (he r List.mem_cons_self) hd1 ha t
    rw [List.foldlM_cons,bind_ok,← Finset.union_assoc]
    constructor
    · rintro ⟨t',h1,h2⟩
      obtain ⟨ha',rfl⟩ := (hroot t').mp h1
      exact (ih _ hv' hrs (fun r hm => he r (List.mem_cons_of_mem _ hm))
        (Finset.disjoint_union_left.mpr ⟨hd2,hapart⟩) ha').mp h2
    · intro h
      have ha' := accountable_subset h.1 (Finset.image_subset_image
        (@Finset.subset_union_left _ _ _ (below disk rs)))
      exact ⟨_,(hroot _).mpr ⟨ha',rfl⟩,(ih _ hv' hrs (fun r hm => he r (List.mem_cons_of_mem _ hm))
        (Finset.disjoint_union_left.mpr ⟨hd2,hapart⟩) ha').mpr h⟩

end Visits

section Inputs
variable (disk : Disk)

/-- From a place down through directories, links not followed. -/
inductive Reaches (start : Place) : Place → Prop
  | self : Reaches start start
  | entry {p : Place} {n : Name} (h : Reaches start p) (hd : disk.kind p = some .dir)
      (hn : n ∈ disk.entries p) : Reaches start (p++[n])

/-- An object below one of the inputs, each taken where its path leads. -/
def Reachable (paths : List (List Part)) (i : Inode) : Prop :=
  ∃ path ∈ paths, ∃ start, canonicalize disk.toTree path = .ok start ∧
    ∃ p, Reaches disk start p ∧ disk.inode p = i

def Existing (paths : List (List Part)) : Prop :=
  ∀ path ∈ paths, ∃ place, canonicalize disk.toTree path = .ok place

end Inputs

section Result
variable {dataDirectory : Bool} {disk : Disk}

theorem reaches_iff {start p : Place} (hs : disk.kind start ≠ none) :
    Reaches disk start p ↔ disk.kind p ≠ none ∧ start <+: p := by
  constructor
  · intro h
    induction h with
    | self => exact ⟨hs,List.prefix_rfl⟩
    | @entry p n _ _ hn ih => exact ⟨(disk.mem_entries p n).mp hn,ih.2.trans (List.prefix_append p [n])⟩
  · rintro ⟨hp,rest,rfl⟩
    induction rest using List.reverseRecOn with
    | nil =>
      rw [List.append_nil]
      exact .self
    | append_singleton rest n ih =>
      rw [← List.append_assoc] at hp ⊢
      have hd := disk.parent _ n hp
      exact .entry (ih (by rw [hd]; simp)) hd ((disk.mem_entries _ n).mpr hp)

theorem canonicalize_kind {path : List Part} {place : Place}
    (h : canonicalize disk.toTree path = .ok place) : disk.kind place ≠ none := by
  obtain ⟨k,-,hn⟩ := walk_names.mp h
  obtain ⟨kind,hk,-⟩ := names_real hn real_root
  rw [hk]
  simp

theorem places_ok {paths : List (List Part)} (h : Existing disk paths) :
    ∃ places, paths.mapM (fun path =>
        (canonicalize disk.toTree path).mapError Paths.ErrorKind.text) = .ok places ∧
      ∀ p, p ∈ places ↔ ∃ path ∈ paths, canonicalize disk.toTree path = .ok p := by
  induction paths with
  | nil => exact ⟨[],rfl,by simp⟩
  | cons path paths ih =>
    obtain ⟨place,hp⟩ := h path List.mem_cons_self
    obtain ⟨places,hm,hi⟩ := ih (fun q hq => h q (List.mem_cons_of_mem _ hq))
    refine ⟨place::places,?_,fun p => ?_⟩
    · rw [List.mapM_cons]
      refine bind_ok.mpr ⟨place,?_,bind_ok.mpr ⟨places,hm,rfl⟩⟩
      rw [hp]
      rfl
    · rw [List.mem_cons,hi]
      constructor
      · rintro (rfl | ⟨q,hq,hqp⟩)
        · exact ⟨path,List.mem_cons_self,hp⟩
        · exact ⟨q,List.mem_cons_of_mem _ hq,hqp⟩
      · rintro ⟨q,hq,hqp⟩
        rcases List.mem_cons.mp hq with rfl | hq
        · exact .inl (Except.ok.inj (hqp.symm.trans hp))
        · exact .inr ⟨q,hq,hqp⟩

theorem usage_totals {paths : List (List Part)} (h : Existing disk paths) :
    ∃ reached : Finset Inode, (∀ i, i ∈ reached ↔ Reachable disk paths i) ∧ ∀ r,
      usage dataDirectory disk paths = .ok r ↔ Accountable dataDirectory disk reached ∧
        r = ((totals disk reached).allocated,(totals disk reached).logical,(totals disk reached).files) := by
  obtain ⟨places,hm,hplaces⟩ := places_ok h
  obtain ⟨hanti,hcover,hsub⟩ := roots_spec places
  have hkind : ∀ p ∈ places, disk.kind p ≠ none := by
    intro p hp
    obtain ⟨path,-,hc⟩ := (hplaces p).mp hp
    exact canonicalize_kind hc
  refine ⟨objects disk (below disk (roots places)),fun i => ?_,fun r => ?_⟩
  · simp only [objects,Finset.mem_image,mem_below]
    constructor
    · rintro ⟨p,⟨hk,r,hr,hrp⟩,hi⟩
      obtain ⟨path,hpath,hc⟩ := (hplaces r).mp (hsub r hr)
      exact ⟨path,hpath,r,hc,p,(reaches_iff (hkind r (hsub r hr))).mpr ⟨hk,hrp⟩,hi⟩
    · rintro ⟨path,hpath,start,hc,p,hp,hi⟩
      have hstart := (hplaces start).mpr ⟨path,hpath,hc⟩
      obtain ⟨hk,hsp⟩ := (reaches_iff (hkind start hstart)).mp hp
      obtain ⟨r,hr,hrs⟩ := hcover start hstart
      exact ⟨p,⟨hk,r,hr,hrs.trans hsp⟩,hi⟩
  · have hzero : (⟨∅,0,0,0⟩ : Totals) = totals disk (objects disk ∅) := by
      simp [totals,objects,content]
    have hnone : Accountable dataDirectory disk (objects disk ∅) := by
      rw [objects,Finset.image_empty]
      exact accountable_empty
    have hfold := foldlM_scanRoot (roots places) ∅ (Finset.empty_subset _) hanti
      (fun r hr => hkind r (hsub r hr)) (Finset.disjoint_empty_left _) hnone
    simp only [Finset.empty_union] at hfold
    unfold usage
    rw [hm,hzero]
    show ((roots places).foldlM (scanRoot dataDirectory disk) _ >>= _) = _ ↔ _
    constructor
    · intro hr
      obtain ⟨t,ht,hr⟩ := bind_ok.mp hr
      obtain ⟨ha,rfl⟩ := (hfold t).mp ht
      exact ⟨ha,(pure_ok.mp hr).symm⟩
    · rintro ⟨ha,rfl⟩
      exact bind_ok.mpr ⟨_,(hfold _).mpr ⟨ha,rfl⟩,rfl⟩

theorem dataUsage_counted {paths : List (List Part)} (h : Existing disk paths) :
    ∃ reached : Finset Inode, (∀ i, i ∈ reached ↔ Reachable disk paths i) ∧ ∀ r,
      dataUsage disk paths = .ok r ↔ Accountable true disk reached ∧
        r = ((totals disk reached).allocated,(totals disk reached).logical,(totals disk reached).files) :=
  usage_totals h

/-- What is measured outside the data directories is measured there too, and
it has no link and no special file. -/
theorem localUsage_counted {paths : List (List Part)} (h : Existing disk paths) (r : ℕ × ℕ × ℕ) :
    localUsage disk paths = .ok r ↔ dataUsage disk paths = .ok r ∧
      ∀ i, Reachable disk paths i → (disk.object i).kind = .dir ∨ (disk.object i).kind = .file := by
  obtain ⟨reached,hreached,hlocal⟩ := @usage_totals false disk paths h
  obtain ⟨reached',hreached',hdata⟩ := dataUsage_counted h
  have hsame : reached' = reached := by
    ext i
    rw [hreached,hreached']
  rw [hsame] at hdata
  rw [localUsage,hlocal,hdata]
  constructor
  · rintro ⟨⟨hkinds,ha,hl⟩,hr⟩
    refine ⟨⟨⟨.inl rfl,ha,hl⟩,hr⟩,fun i hi => ?_⟩
    exact (hkinds.resolve_left (by decide)) i ((hreached i).mpr hi)
  · rintro ⟨⟨⟨-,ha,hl⟩,hr⟩,hkinds⟩
    exact ⟨⟨.inr (fun i hi => hkinds i ((hreached i).mp hi)),ha,hl⟩,hr⟩

end Result

theorem counted_once :
    (∀ (α : Type) [LinearOrder α] (paths : List (List α)), Antichain (roots paths) ∧
      (∀ p ∈ paths, ∃ r ∈ roots paths, r <+: p) ∧ ∀ r ∈ roots paths, r ∈ paths) ∧
    ∀ (dataDirectory : Bool) (disk : Disk) (paths : List (List Part)), Existing disk paths →
      (∃ reached : Finset Inode, (∀ i, i ∈ reached ↔ Reachable disk paths i) ∧
        ∀ allocated logical files,
          usage dataDirectory disk paths = .ok (allocated,logical,files) ↔
            Accountable dataDirectory disk reached ∧
            allocated = ∑ i ∈ reached, (disk.object i).blocks*512 ∧
            logical = ∑ i ∈ reached.filter (fun i => (disk.object i).kind ≠ .dir),
              (disk.object i).len ∧
            files = (reached.filter (fun i => (disk.object i).kind ≠ .dir)).card) ∧
      ∀ paths', Existing disk paths' → (∀ i, Reachable disk paths i ↔ Reachable disk paths' i) →
        ∀ r, usage dataDirectory disk paths = .ok r ↔ usage dataDirectory disk paths' = .ok r := by
  refine ⟨fun α _ paths => roots_spec paths,fun dataDirectory disk paths h => ?_⟩
  obtain ⟨reached,hreached,hr⟩ := @usage_totals dataDirectory disk paths h
  refine ⟨⟨reached,hreached,fun allocated logical files => ?_⟩,fun paths' h' hsame r => ?_⟩
  · rw [hr,Prod.mk.injEq,Prod.mk.injEq]
    rfl
  · obtain ⟨reached',hreached',hr'⟩ := @usage_totals dataDirectory disk paths' h'
    have heq : reached = reached' := by
      ext i
      rw [hreached,hreached',hsame]
    rw [hr,hr',heq]

/-- A directory whose file has a second name beside the directory. -/
def sampleKind (p : Place) : Option Kind :=
  if p = [] ∨ p = ["nested"] then some .dir
  else if p = ["hardlink"] ∨ p = ["nested","data"] then some .file else none

theorem sampleKind_cases {p : Place} (h : sampleKind p ≠ none) :
    p = [] ∨ p = ["nested"] ∨ p = ["hardlink"] ∨ p = ["nested","data"] := by
  unfold sampleKind at h
  split_ifs at h with hd hf
  · exact hd.elim .inl (fun h => .inr (.inl h))
  · exact .inr (.inr hf)
  · exact absurd rfl h

theorem sampleKind_dir {p : Place} (h : sampleKind p = some .dir) : p = [] ∨ p = ["nested"] := by
  unfold sampleKind at h
  split_ifs at h with hd
  · exact hd
  · cases h

theorem sampleKind_child (p : Place) (n : Name) : sampleKind (p++[n]) ≠ none ↔
    p = [] ∧ (n = "nested" ∨ n = "hardlink") ∨ p = ["nested"] ∧ n = "data" := by
  have hsnoc : ∀ {q : Place} {m : Name}, p++[n] = q++[m] → p = q ∧ n = m := by
    intro q m h
    obtain ⟨hp,hn⟩ := List.append_inj' h rfl
    exact ⟨hp,List.head_eq_of_cons_eq hn⟩
  constructor
  · intro h
    rcases sampleKind_cases h with h | h | h | h
    · exact absurd h (by simp)
    · obtain ⟨rfl,rfl⟩ := hsnoc (q := []) h
      exact .inl ⟨rfl,.inl rfl⟩
    · obtain ⟨rfl,rfl⟩ := hsnoc (q := []) h
      exact .inl ⟨rfl,.inr rfl⟩
    · obtain ⟨rfl,rfl⟩ := hsnoc (q := ["nested"]) h
      exact .inr ⟨rfl,rfl⟩
  · rintro (⟨rfl,rfl | rfl⟩ | ⟨rfl,rfl⟩) <;> decide

def sampleDisk : Disk where
  kind := sampleKind
  root := rfl
  parent p n h := by
    rcases (sampleKind_child p n).mp h with ⟨rfl,-⟩ | ⟨rfl,-⟩ <;> rfl
  places := {[],["nested"],["hardlink"],["nested","data"]}
  inode p := if p = [] then (0,0) else if p = ["nested"] then (0,1) else (0,2)
  object i := if i = (0,2) then ⟨.file,8,5⟩ else ⟨.dir,8,4096⟩
  entries p := if p = [] then ["nested","hardlink"] else if p = ["nested"] then ["data"] else []
  mem_places p := by
    simp only [Finset.mem_insert, Finset.mem_singleton]
    refine ⟨?_,sampleKind_cases⟩
    rintro (rfl | rfl | rfl | rfl) <;> decide
  kind_object p k h := by
    rcases sampleKind_cases (by rw [h]; simp) with rfl | rfl | rfl | rfl <;> exact Option.some.inj h
  dir_inode p q hp hq h := by
    rcases sampleKind_dir hp with rfl | rfl <;> rcases sampleKind_dir hq with rfl | rfl
    · rfl
    · exact absurd h (by decide)
    · exact absurd h (by decide)
    · rfl
  entries_nodup p := by
    split_ifs <;> decide
  mem_entries p n := by
    rw [sampleKind_child]
    split_ifs with h h'
    · simp [h]
    · simp [h']
    · simp [h, h']

def samplePaths : List (List Part) := [[.normal "nested"],[],[.normal "nested",.parentDir]]

theorem samplePaths_existing : Existing sampleDisk samplePaths := by
  intro path hpath
  simp only [samplePaths, List.mem_cons, List.not_mem_nil, or_false] at hpath
  rcases hpath with rfl | rfl | rfl
  · exact ⟨["nested"],rfl⟩
  · exact ⟨[],rfl⟩
  · exact ⟨[],rfl⟩

theorem samplePaths_reachable (i : Inode) : Reachable sampleDisk samplePaths i ↔
    i ∈ ({(0,0),(0,1),(0,2)} : Finset Inode) := by
  constructor
  · rintro ⟨path,-,start,hstart,p,hp,rfl⟩
    have hkind := ((reaches_iff (canonicalize_kind hstart)).mp hp).1
    rcases sampleKind_cases hkind with rfl | rfl | rfl | rfl <;> decide
  · intro hi
    have hall : ∀ p, sampleKind p ≠ none → Reachable sampleDisk samplePaths (sampleDisk.inode p) :=
      fun p hp => ⟨[],by decide,[],rfl,p,(reaches_iff (by decide)).mpr ⟨hp,List.nil_prefix⟩,rfl⟩
    simp only [Finset.mem_insert, Finset.mem_singleton] at hi
    rcases hi with rfl | rfl | rfl
    · exact hall [] (by decide)
    · exact hall ["nested"] (by decide)
    · exact hall ["hardlink"] (by decide)

/-- Three objects, of which the file with two names is counted once. -/
theorem counted_once_sample : localUsage sampleDisk samplePaths = .ok (3*4096,5,1) := by
  obtain ⟨⟨reached,hreached,hr⟩,-⟩ := counted_once.2 false sampleDisk samplePaths samplePaths_existing
  obtain rfl : reached = {(0,0),(0,1),(0,2)} := by
    ext i
    rw [hreached, samplePaths_reachable]
  exact (hr _ _ _).mpr ⟨⟨.inr (by decide),by decide,by decide⟩,by decide,by decide,by decide⟩

end EvmState.Usage
