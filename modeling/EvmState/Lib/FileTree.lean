import Mathlib.Data.List.Infix
import EvmState.Lib.Fallible

/-!
# File trees and the walk along a path

A tree says what stands at each place, a place being the list of names from
the root. The walk goes through a path component by component and follows the
symbolic links it meets, at most so many of them.
-/

set_option autoImplicit false

namespace EvmState.FileTree

abbrev Name := String
abbrev Place := List Name

/-- A component of a path below its root. -/
inductive Part where
  | curDir
  | parentDir
  | normal (name : Name)
  deriving DecidableEq, Repr

structure Target where
  absolute : Bool
  parts : List Part
  deriving DecidableEq, Repr

inductive Kind where
  | dir
  | file
  | special
  | link (target : Target)
  deriving DecidableEq, Repr

def Kind.isSymlink : Kind → Bool
  | .link _ => true
  | _ => false

inductive ErrorKind where
  | notFound
  | notADirectory
  | filesystemLoop
  deriving DecidableEq, Repr

/-- What has an entry stands in a directory, up to the root. -/
structure Tree where
  kind : Place → Option Kind
  root : kind [] = some .dir
  parent : ∀ (p : Place) (n : Name), kind (p++[n]) ≠ none → kind p = some .dir

def plain (p : Place) : List Part := p.map .normal

@[simp] theorem plain_nil : plain [] = [] := rfl
@[simp] theorem plain_append (p q : Place) : plain (p++q) = plain p++plain q := List.map_append
@[simp] theorem plain_cons (n : Name) (p : Place) : plain (n::p) = .normal n::plain p := rfl

section Walk
variable (tree : Tree)

def Target.base (t : Target) (directory : Place) : Place := if t.absolute then [] else directory

def walkParts (follow : Place → List Part → Except ErrorKind Place) :
    Place → List Part → Except ErrorKind Place
  | place, [] => .ok place
  | place, part::rest =>
    if tree.kind place = some .dir then
      match part with
      | .curDir => walkParts follow place rest
      | .parentDir => walkParts follow place.dropLast rest
      | .normal name =>
        match tree.kind (place++[name]) with
        | none => .error .notFound
        | some (.link t) => follow (t.base place) (t.parts++rest)
        | some _ => walkParts follow (place++[name]) rest
    else .error .notADirectory

def walk : ℕ → Place → List Part → Except ErrorKind Place
  | 0 => walkParts tree (fun _ _ => .error .filesystemLoop)
  | budget+1 => walkParts tree (walk budget)

def maxSymlinks : ℕ := 40

def canonicalize (path : List Part) : Except ErrorKind Place := walk tree maxSymlinks [] path

/-- What stands at the end of a path, a link there not followed. -/
def symlinkMetadata (path : Place) : Except ErrorKind Kind :=
  match path.getLast? with
  | none => .ok .dir
  | some name => do
    let directory ← canonicalize tree (plain path.dropLast)
    if tree.kind directory = some .dir then
      match tree.kind (directory++[name]) with
      | none => .error .notFound
      | some kind => .ok kind
    else .error .notADirectory

/-- A path names a place through so many links. -/
inductive Names : ℕ → Place → List Part → Place → Prop
  | here {place : Place} : Names 0 place [] place
  | curDir {k : ℕ} {place result : Place} {rest : List Part} (hd : tree.kind place = some .dir)
      (h : Names k place rest result) : Names k place (.curDir::rest) result
  | parentDir {k : ℕ} {place result : Place} {rest : List Part} (hd : tree.kind place = some .dir)
      (h : Names k place.dropLast rest result) : Names k place (.parentDir::rest) result
  | entry {k : ℕ} {place result : Place} {name : Name} {rest : List Part} {kind : Kind}
      (hd : tree.kind place = some .dir) (hk : tree.kind (place++[name]) = some kind)
      (hs : kind.isSymlink = false) (h : Names k (place++[name]) rest result) :
      Names k place (.normal name::rest) result
  | link {k : ℕ} {place result : Place} {name : Name} {rest : List Part} {t : Target}
      (hd : tree.kind place = some .dir) (hk : tree.kind (place++[name]) = some (.link t))
      (h : Names k (t.base place) (t.parts++rest) result) :
      Names (k+1) place (.normal name::rest) result

end Walk

section Rules
variable {tree : Tree}

theorem names_walkParts {follow : Place → List Part → Except ErrorKind Place} {k : ℕ}
    {place result : Place} {path : List Part}
    (hf : ∀ p q, ∀ j < k, Names tree j p q result → follow p q = .ok result)
    (h : Names tree k place path result) : walkParts tree follow place path = .ok result := by
  induction h with
  | here => rfl
  | curDir hd _ ih | parentDir hd _ ih =>
    rw [walkParts,if_pos hd]
    exact ih hf
  | @entry k place result name rest kind hd hk hs _ ih =>
    rw [walkParts,if_pos hd]
    cases kind with
    | link t => cases hs
    | dir | file | special => simp only [hk]; exact ih hf
  | link hd hk h =>
    rw [walkParts,if_pos hd]
    simp only [hk]
    exact hf _ _ _ (by omega) h

theorem names_walk {k budget : ℕ} {place result : Place} {path : List Part} (hb : k ≤ budget)
    (h : Names tree k place path result) : walk tree budget place path = .ok result := by
  induction budget generalizing k place path with
  | zero => exact names_walkParts (fun _ _ j hj => absurd hj (by omega)) h
  | succ budget ih => exact names_walkParts (fun _ _ j hj hn => ih (by omega) hn) h

theorem walkParts_dir {follow : Place → List Part → Except ErrorKind Place} {place result : Place}
    {part : Part} {rest : List Part} (h : walkParts tree follow place (part::rest) = .ok result) :
    tree.kind place = some .dir := by
  by_contra hd
  cases part with
  | curDir | parentDir | normal =>
    rw [walkParts,if_neg hd] at h
    cases h

theorem walkParts_names {follow : Place → List Part → Except ErrorKind Place} {budget : ℕ}
    {place result : Place} {path : List Part}
    (hf : ∀ p q, follow p q = .ok result → ∃ k < budget, Names tree k p q result)
    (h : walkParts tree follow place path = .ok result) :
    ∃ k ≤ budget, Names tree k place path result := by
  induction path generalizing place with
  | nil =>
    cases h
    exact ⟨0,by omega,.here⟩
  | cons part rest ih =>
    have hd := walkParts_dir h
    cases part with
    | curDir =>
      rw [walkParts,if_pos hd] at h
      obtain ⟨k,hk,hn⟩ := ih h
      exact ⟨k,hk,.curDir hd hn⟩
    | parentDir =>
      rw [walkParts,if_pos hd] at h
      obtain ⟨k,hk,hn⟩ := ih h
      exact ⟨k,hk,.parentDir hd hn⟩
    | normal name =>
      rw [walkParts,if_pos hd] at h
      cases hk : tree.kind (place++[name]) with
      | none => simp [hk] at h
      | some kind =>
        cases kind with
        | link t =>
          simp only [hk] at h
          obtain ⟨k,hlt,hn⟩ := hf _ _ h
          exact ⟨k+1,hlt,.link hd hk hn⟩
        | dir | file | special =>
          simp only [hk] at h
          obtain ⟨k,hle,hn⟩ := ih h
          exact ⟨k,hle,.entry hd hk rfl hn⟩

theorem walk_names {budget : ℕ} {place result : Place} {path : List Part} :
    walk tree budget place path = .ok result ↔ ∃ k ≤ budget, Names tree k place path result := by
  constructor
  · intro h
    induction budget generalizing place path with
    | zero => exact walkParts_names (fun _ _ h => by cases h) h
    | succ budget ih =>
      refine walkParts_names (fun p q h => ?_) h
      obtain ⟨k,hk,hn⟩ := ih h
      exact ⟨k,by omega,hn⟩
  · rintro ⟨k,hk,hn⟩
    exact names_walk hk hn

theorem names_append {k j : ℕ} {place middle result : Place} {path rest : List Part}
    (h : Names tree k place path middle) (h' : Names tree j middle rest result) :
    Names tree (k+j) place (path++rest) result := by
  induction h with
  | here => rwa [Nat.zero_add]
  | curDir hd _ ih => exact .curDir hd (ih h')
  | parentDir hd _ ih => exact .parentDir hd (ih h')
  | entry hd hk hs _ ih => exact .entry hd hk hs (ih h')
  | @link k place _ name path t hd hk _ ih =>
    rw [Nat.add_right_comm]
    refine .link hd hk ?_
    show Names tree (k+j) (t.base place) (t.parts++(path++rest)) result
    rw [← List.append_assoc]
    exact ih h'

theorem names_split {k : ℕ} {place result : Place} {path : List Part}
    (h : Names tree k place path result) (first rest : List Part) (hp : path = first++rest) :
    ∃ i j middle, i+j = k ∧ Names tree i place first middle ∧ Names tree j middle rest result := by
  -- a split before the first component splits nothing
  have hnil : ∀ {k place path result}, Names tree k place path result → path = rest →
      ∃ i j middle, i+j = k ∧ Names tree i place [] middle ∧ Names tree j middle rest result := by
    rintro k place _ _ h rfl
    exact ⟨0,k,place,Nat.zero_add k,.here,h⟩
  induction h generalizing first with
  | here =>
    obtain ⟨rfl,rfl⟩ := List.append_eq_nil_iff.mp hp.symm
    exact hnil .here rfl
  | curDir hd h ih =>
    cases first with
    | nil => exact hnil (.curDir hd h) hp
    | cons part first =>
      obtain ⟨rfl,hq⟩ := List.cons.inj hp
      obtain ⟨i,j,m,hij,h1,h2⟩ := ih first hq
      exact ⟨i,j,m,hij,.curDir hd h1,h2⟩
  | parentDir hd h ih =>
    cases first with
    | nil => exact hnil (.parentDir hd h) hp
    | cons part first =>
      obtain ⟨rfl,hq⟩ := List.cons.inj hp
      obtain ⟨i,j,m,hij,h1,h2⟩ := ih first hq
      exact ⟨i,j,m,hij,.parentDir hd h1,h2⟩
  | entry hd hk hs h ih =>
    cases first with
    | nil => exact hnil (.entry hd hk hs h) hp
    | cons part first =>
      obtain ⟨rfl,hq⟩ := List.cons.inj hp
      obtain ⟨i,j,m,hij,h1,h2⟩ := ih first hq
      exact ⟨i,j,m,hij,.entry hd hk hs h1,h2⟩
  | @link _ _ _ _ _ t hd hk h ih =>
    cases first with
    | nil => exact hnil (.link hd hk h) hp
    | cons part first =>
      obtain ⟨rfl,hq⟩ := List.cons.inj hp
      obtain ⟨i,j,m,hij,h1,h2⟩ := ih (t.parts++first) (by
        rw [List.append_assoc]
        exact congrArg _ hq)
      exact ⟨i+1,j,m,by omega,.link hd hk h1,h2⟩

def Real (tree : Tree) (p : Place) : Prop := ∃ kind, tree.kind p = some kind ∧ kind.isSymlink = false

theorem real_root : Real tree [] := ⟨.dir,tree.root,rfl⟩

theorem real_dropLast {p : Place} (h : Real tree p) : Real tree p.dropLast := by
  obtain ⟨kind,hk,-⟩ := h
  rcases List.eq_nil_or_concat p with rfl | ⟨q,n,rfl⟩
  · exact real_root
  · rw [List.concat_eq_append,List.dropLast_concat]
    exact ⟨.dir,tree.parent q n (by rw [← List.concat_eq_append,hk]; simp),rfl⟩

/-- A place without links on the way is named by its own names. -/
theorem names_plain {p : Place} (h : Real tree p) : Names tree 0 [] (plain p) p := by
  induction p using List.reverseRecOn with
  | nil => exact .here
  | append_singleton q n ih =>
    obtain ⟨kind,hk,hs⟩ := h
    have hd : tree.kind q = some .dir := tree.parent q n (by rw [hk]; simp)
    rw [plain_append]
    exact names_append (ih ⟨.dir,hd,rfl⟩) (.entry hd hk hs .here)

theorem names_real {k : ℕ} {place result : Place} {path : List Part}
    (h : Names tree k place path result) (hp : Real tree place) : Real tree result := by
  induction h with
  | here => exact hp
  | curDir _ _ ih => exact ih hp
  | parentDir _ _ ih => exact ih (real_dropLast hp)
  | entry _ hk hs _ ih => exact ih ⟨_,hk,hs⟩
  | @link _ _ _ _ _ t _ _ _ ih =>
    apply ih
    unfold Target.base
    split_ifs
    · exact real_root
    · exact hp

theorem symlinkMetadata_child {p : Place} {n : Name} (hd : tree.kind p = some .dir) :
    symlinkMetadata tree (p++[n]) = match tree.kind (p++[n]) with
      | none => .error .notFound
      | some kind => .ok kind := by
  have hwalk : canonicalize tree (plain p) = .ok p := names_walk (by omega) (names_plain ⟨.dir,hd,rfl⟩)
  rw [symlinkMetadata,List.getLast?_concat,List.dropLast_concat]
  simp only [hwalk]
  show (if tree.kind p = some .dir then _ else _) = _
  rw [if_pos hd]

theorem canonicalize_plain (hl : ∀ p t, tree.kind p ≠ some (.link t)) {p place : Place}
    (h : canonicalize tree (plain p) = .ok place) : place = p := by
  have hnames : ∀ {k : ℕ} {start result : Place} (q : Place),
      Names tree k start (plain q) result → result = start++q := by
    intro k start result q hn
    induction q generalizing k start with
    | nil =>
      cases hn
      exact (List.append_nil _).symm
    | cons n q ih =>
      cases hn with
      | entry _ _ _ hn =>
        rw [ih hn,List.append_assoc]
        rfl
      | link _ hk => exact absurd hk (hl _ _)
  obtain ⟨k,-,hn⟩ := walk_names.mp h
  exact hnames p hn

end Rules

end EvmState.FileTree
