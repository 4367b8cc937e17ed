import EvmState.Lib.FileTree

/-!
# The path of a state directory

A directory is resolved before its lock file is opened, so that two spellings
of it find the same lock. The components of a path are resolved one after
another. A link restarts the resolution on its target, within a budget of
links that the whole path shares, and what does not exist yet is kept as it is
spelled.
-/

set_option autoImplicit false

namespace EvmState.Paths
open EvmState.Fallible EvmState.FileTree

def ErrorKind.text : ErrorKind → String
  | .notFound => "No such file or directory"
  | .notADirectory => "Not a directory"
  | .filesystemLoop => "Too many levels of symbolic links"

section Resolve
variable (tree : Tree)

/-- The loop over the components below the root. The root itself comes first
and is no link. -/
def resolveParts (inner : List Part → ℕ → Except String (Place × ℕ)) :
    List Part → Place → ℕ → Except String (Place × ℕ)
  | [], resolved, links => .ok (resolved,links)
  | .parentDir::rest, resolved, links => resolveParts inner rest resolved.dropLast links
  | .curDir::rest, resolved, links => resolveParts inner rest resolved links
  | .normal name::rest, resolved, links =>
    match symlinkMetadata tree (resolved++[name]) with
    | .ok (.link target) => do
      ensure (links+1 ≤ 40) "too many symbolic links in state directory"
      let target := if target.absolute then target.parts else plain resolved++target.parts
      let (resolved,links) ← inner target (links+1)
      resolveParts inner rest resolved links
    | .ok _ => resolveParts inner rest (resolved++[name]) links
    | .error .notFound => resolveParts inner rest (resolved++[name]) links
    | .error error => .error (ErrorKind.text error)

/-- Every nested call has counted one more link, so that a depth of as many
calls as the count allows is enough. -/
def resolveInner : ℕ → List Part → ℕ → Except String (Place × ℕ)
  | 0, _, _ => .error "too many symbolic links in state directory"
  | depth+1, absolute, links => resolveParts tree (resolveInner depth) absolute [] links

def resolve (currentDir : List Part) (path : Target) : Except String Place := do
  let absolute := if path.absolute then path.parts else currentDir++path.parts
  let (resolved,_) ← resolveInner tree 41 absolute 0
  return resolved

def runLock (directory : Place) : Place := directory++["run.lock"]

/-- The loop and its nested calls, without a bound on their depth. -/
inductive Resolves : List Part → Place → ℕ → Except String (Place × ℕ) → Prop
  | done {resolved : Place} {links : ℕ} : Resolves [] resolved links (.ok (resolved,links))
  | parentDir {rest : List Part} {resolved : Place} {links : ℕ} {result : Except String (Place × ℕ)}
      (h : Resolves rest resolved.dropLast links result) :
      Resolves (.parentDir::rest) resolved links result
  | curDir {rest : List Part} {resolved : Place} {links : ℕ} {result : Except String (Place × ℕ)}
      (h : Resolves rest resolved links result) : Resolves (.curDir::rest) resolved links result
  | kept {name : Name} {kind : Kind} {rest : List Part} {resolved : Place} {links : ℕ}
      {result : Except String (Place × ℕ)} (hm : symlinkMetadata tree (resolved++[name]) = .ok kind)
      (hs : kind.isSymlink = false) (h : Resolves rest (resolved++[name]) links result) :
      Resolves (.normal name::rest) resolved links result
  | missing {name : Name} {rest : List Part} {resolved : Place} {links : ℕ}
      {result : Except String (Place × ℕ)}
      (hm : symlinkMetadata tree (resolved++[name]) = .error .notFound)
      (h : Resolves rest (resolved++[name]) links result) :
      Resolves (.normal name::rest) resolved links result
  | failed {name : Name} {rest : List Part} {resolved : Place} {links : ℕ} {error : ErrorKind}
      (hm : symlinkMetadata tree (resolved++[name]) = .error error) (he : error ≠ .notFound) :
      Resolves (.normal name::rest) resolved links (.error (ErrorKind.text error))
  | exhausted {name : Name} {rest : List Part} {resolved : Place} {links : ℕ} {target : Target}
      (hm : symlinkMetadata tree (resolved++[name]) = .ok (.link target)) (hl : 40 < links+1) :
      Resolves (.normal name::rest) resolved links
        (.error "too many symbolic links in state directory")
  | nested {name : Name} {rest : List Part} {resolved : Place} {links : ℕ} {target : Target}
      {error : String} (hm : symlinkMetadata tree (resolved++[name]) = .ok (.link target))
      (hl : links+1 ≤ 40)
      (hi : Resolves (if target.absolute then target.parts else plain resolved++target.parts) []
        (links+1) (.error error)) :
      Resolves (.normal name::rest) resolved links (.error error)
  | followed {name : Name} {rest : List Part} {resolved place : Place} {links links' : ℕ}
      {target : Target} {result : Except String (Place × ℕ)}
      (hm : symlinkMetadata tree (resolved++[name]) = .ok (.link target)) (hl : links+1 ≤ 40)
      (hi : Resolves (if target.absolute then target.parts else plain resolved++target.parts) []
        (links+1) (.ok (place,links')))
      (h : Resolves rest place links' result) : Resolves (.normal name::rest) resolved links result

end Resolve

section Runs
variable {tree : Tree}

theorem resolves_links {path : List Part} {resolved : Place} {links : ℕ}
    {result : Except String (Place × ℕ)} (h : Resolves tree path resolved links result)
    (place : Place) (links' : ℕ) (hr : result = .ok (place,links')) : links ≤ links' := by
  induction h generalizing place links' with
  | done =>
    cases hr
    exact le_refl _
  | parentDir _ ih | curDir _ ih => exact ih place links' hr
  | kept _ _ _ ih | missing _ _ ih => exact ih place links' hr
  | failed | exhausted | nested => cases hr
  | followed _ _ _ _ ihi ih =>
    have := ihi _ _ rfl
    have := ih place links' hr
    omega

/-- The rounds of one loop, when the nested calls return. -/
theorem resolveParts_resolves {inner : List Part → ℕ → Except String (Place × ℕ)} {start : ℕ}
    (hi : ∀ path links, start < links → links ≤ 40 → Resolves tree path [] links (inner path links))
    (path : List Part) (resolved : Place) {links : ℕ} (hl : start ≤ links) :
    Resolves tree path resolved links (resolveParts tree inner path resolved links) := by
  induction path generalizing resolved links with
  | nil => exact .done
  | cons part rest ih =>
    cases part with
    | curDir => exact .curDir (ih resolved hl)
    | parentDir => exact .parentDir (ih resolved.dropLast hl)
    | normal name =>
      rw [resolveParts]
      cases hm : symlinkMetadata tree (resolved++[name]) with
      | error error =>
        cases error with
        | notFound => exact .missing hm (ih _ hl)
        | notADirectory | filesystemLoop => exact .failed hm (by simp)
      | ok kind =>
        cases kind with
        | dir | file | special => exact .kept hm rfl (ih _ hl)
        | link target =>
          by_cases hb : links+1 ≤ 40
          · have hrun := hi (if target.absolute then target.parts else plain resolved++target.parts)
              (links+1) (by omega) hb
            simp only [ensure,if_pos hb]
            cases hn : inner (if target.absolute then target.parts else plain resolved++target.parts)
                (links+1) with
            | error error =>
              rw [hn] at hrun
              exact .nested hm hb hrun
            | ok out =>
              rw [hn] at hrun
              have := resolves_links hrun out.1 out.2 rfl
              exact .followed hm hb hrun (ih _ (by omega))
          · simp only [ensure,if_neg hb]
            exact .exhausted hm (by omega)

theorem resolveInner_resolves {depth : ℕ} (path : List Part) {links : ℕ} (hl : links ≤ 40)
    (hd : 41 ≤ depth+links) : Resolves tree path [] links (resolveInner tree depth path links) := by
  induction depth generalizing path links with
  | zero => omega
  | succ depth ih =>
    have hnested : ∀ path' links', links < links' → links' ≤ 40 →
        Resolves tree path' [] links' (resolveInner tree depth path' links') :=
      fun path' links' hlt hle => ih path' hle (by omega)
    exact resolveParts_resolves hnested path [] (le_refl links)

theorem resolves_resolveParts {path : List Part} {resolved : Place} {links : ℕ}
    {result : Except String (Place × ℕ)} (h : Resolves tree path resolved links result) (depth : ℕ)
    (hd : 40 ≤ depth+links) :
    resolveParts tree (resolveInner tree depth) path resolved links = result := by
  induction h generalizing depth with
  | done => rfl
  | parentDir _ ih | curDir _ ih => exact ih depth hd
  | @kept _ kind _ _ _ _ hm hs _ ih =>
    rw [resolveParts,hm]
    cases kind with
    | link t => cases hs
    | dir | file | special => exact ih depth hd
  | missing hm _ ih =>
    rw [resolveParts,hm]
    exact ih depth hd
  | @failed _ _ _ _ error hm he =>
    rw [resolveParts,hm]
    cases error with
    | notFound => exact absurd rfl he
    | notADirectory | filesystemLoop => rfl
  | @exhausted _ _ _ links _ hm hl =>
    rw [resolveParts,hm]
    simp only [ensure,if_neg (show ¬links+1 ≤ 40 by omega)]
    rfl
  | nested hm hl _ ihi =>
    obtain ⟨d,rfl⟩ : ∃ d, depth = d+1 := ⟨depth-1,by omega⟩
    rw [resolveParts,hm]
    simp only [ensure,if_pos hl]
    have hinner := ihi d (by omega)
    show (resolveParts tree (resolveInner tree d) _ [] _ >>= _) = _
    rw [hinner]
    rfl
  | followed hm hl hi _ ihi ih =>
    obtain ⟨d,rfl⟩ : ∃ d, depth = d+1 := ⟨depth-1,by omega⟩
    rw [resolveParts,hm]
    simp only [ensure,if_pos hl]
    have hinner := ihi d (by omega)
    have hle := resolves_links hi _ _ rfl
    show (resolveParts tree (resolveInner tree d) _ [] _ >>= _) = _
    rw [hinner]
    exact ih (d+1) (by omega)

theorem resolves_iff {path : List Part} {result : Except String (Place × ℕ)} :
    Resolves tree path [] 0 result ↔ resolveInner tree 41 path 0 = result := by
  constructor
  · exact fun h => resolves_resolveParts h 40 (by omega)
  · rintro rfl
    exact resolveInner_resolves path (by omega) (by omega)

/-- Every prefix was looked up: it does not exist, or it is no link. -/
def Settled (tree : Tree) (place : Place) : Prop := ∀ q, q <+: place →
  symlinkMetadata tree q = .error .notFound ∨
    ∃ kind, symlinkMetadata tree q = .ok kind ∧ kind.isSymlink = false

theorem settled_root : Settled tree [] := by
  intro q hq
  rw [List.prefix_nil.mp hq]
  exact .inr ⟨.dir,rfl,rfl⟩

theorem settled_push {place : Place} {name : Name} (h : Settled tree place)
    (hm : symlinkMetadata tree (place++[name]) = .error .notFound ∨
      ∃ kind, symlinkMetadata tree (place++[name]) = .ok kind ∧ kind.isSymlink = false) :
    Settled tree (place++[name]) := by
  intro q hq
  rcases List.prefix_concat_iff.mp hq with rfl | hq
  · exact hm
  · exact h q hq

theorem resolves_settled {path : List Part} {resolved : Place} {links : ℕ}
    {result : Except String (Place × ℕ)} (h : Resolves tree path resolved links result)
    (hs : Settled tree resolved) (place : Place) (links' : ℕ) (hr : result = .ok (place,links')) :
    Settled tree place := by
  induction h generalizing place links' with
  | done =>
    cases hr
    exact hs
  | @parentDir _ resolved _ _ _ ih =>
    exact ih (fun q hq => hs q (hq.trans (List.dropLast_prefix resolved))) place links' hr
  | curDir _ ih => exact ih hs place links' hr
  | kept hm hl _ ih => exact ih (settled_push hs (.inr ⟨_,hm,hl⟩)) place links' hr
  | missing hm _ ih => exact ih (settled_push hs (.inl hm)) place links' hr
  | failed | exhausted | nested => cases hr
  | followed _ _ _ _ ihi ih => exact ih (ihi settled_root _ _ rfl) place links' hr

/-- A resolved path is kept, name by name. -/
theorem settled_resolves (rest : Place) {resolved : Place} (links : ℕ)
    (h : Settled tree (resolved++rest)) :
    Resolves tree (plain rest) resolved links (.ok (resolved++rest,links)) := by
  induction rest generalizing resolved with
  | nil =>
    rw [List.append_nil]
    exact .done
  | cons name rest ih =>
    rw [List.append_cons] at h ⊢
    rcases h (resolved++[name]) (List.prefix_append _ _) with hm | ⟨kind,hm,hs⟩
    · exact .missing hm (ih h)
    · exact .kept hm hs (ih h)

theorem names_joined {k : ℕ} {directory place : Place} {t : Target} (hd : Real tree directory)
    (h : Names tree k (t.base directory) t.parts place) :
    Names tree k [] (if t.absolute then t.parts else plain directory++t.parts) place := by
  unfold Target.base at h
  split_ifs with ha
  · rwa [if_pos ha] at h
  · rw [if_neg ha] at h
    have := names_append (names_plain hd) h
    rwa [Nat.zero_add] at this

/-- A path that names something, through no more links than the budget has
left, resolves to the place it names. -/
theorem names_resolves {k : ℕ} {place result : Place} {path : List Part}
    (h : Names tree k place path result) (hp : Real tree place) (links : ℕ) (hl : links+k ≤ 40) :
    Resolves tree path place links (.ok (result,links+k)) := by
  induction k using Nat.strong_induction_on generalizing place result path links with
  | _ k ihk =>
    induction h generalizing links with
    | here => exact .done
    | curDir _ _ ih => exact .curDir (ih ihk hp links hl)
    | parentDir _ _ ih => exact .parentDir (ih ihk (real_dropLast hp) links hl)
    | entry hd hk hs _ ih =>
      exact .kept (by rw [symlinkMetadata_child hd,hk]) hs (ih ihk ⟨_,hk,hs⟩ links hl)
    | @link k place result name rest t hd hk h =>
      obtain ⟨i,j,middle,hij,h1,h2⟩ := names_split h t.parts rest rfl
      have hm : symlinkMetadata tree (place++[name]) = .ok (.link t) := by
        rw [symlinkMetadata_child hd,hk]
      have hjoined := names_joined hp h1
      have hinner := ihk i (by omega) hjoined real_root (links+1) (by omega)
      have hrest := ihk j (by omega) h2 (names_real hjoined real_root) (links+1+i) (by omega)
      rw [show links+1+i+j = links+(k+1) by omega] at hrest
      exact .followed hm (by omega) hinner hrest

theorem resolves_names {path : List Part} {resolved : Place} {links : ℕ}
    {result : Except String (Place × ℕ)} (h : Resolves tree path resolved links result)
    (hp : Real tree resolved) (place : Place) (links' : ℕ) (hr : result = .ok (place,links'))
    {k : ℕ} {object : Place} (hn : Names tree k resolved path object) : place = object := by
  induction h generalizing place links' k object with
  | done =>
    cases hr
    cases hn
    rfl
  | parentDir _ ih =>
    cases hn with
    | parentDir _ hn => exact ih (real_dropLast hp) place links' hr hn
  | curDir _ ih =>
    cases hn with
    | curDir _ hn => exact ih hp place links' hr hn
  | kept hm hs _ ih =>
    cases hn with
    | entry hd hk hs hn => exact ih ⟨_,hk,hs⟩ place links' hr hn
    | link hd hk =>
      rw [symlinkMetadata_child hd,hk,Except.ok.injEq] at hm
      subst hm
      cases hs
  | missing hm _ =>
    cases hn with
    | entry hd hk | link hd hk =>
      rw [symlinkMetadata_child hd,hk] at hm
      cases hm
  | failed | exhausted | nested => cases hr
  | @followed name rest resolved middle links links'' t result hm _ _ _ ihi ih =>
    cases hn with
    | entry hd hk hs =>
      rw [symlinkMetadata_child hd,hk,Except.ok.injEq] at hm
      subst hm
      cases hs
    | link hd hk hn =>
      rw [symlinkMetadata_child hd,hk,Except.ok.injEq,Kind.link.injEq] at hm
      subst hm
      obtain ⟨i,j,e,-,h1,h2⟩ := names_split hn _ rest rfl
      have hjoined := names_joined hp h1
      obtain rfl := ihi real_root middle links'' rfl hjoined
      exact ih (names_real hjoined real_root) place links' hr h2

end Runs

def spelled (currentDir : List Part) (path : Target) : List Part :=
  if path.absolute then path.parts else currentDir++path.parts

theorem path_resolution (tree : Tree) :
    (∀ absolute, ∃ result, Resolves tree absolute [] 0 result ∧
      resolveInner tree 41 absolute 0 = result ∧
      ∀ r, Resolves tree absolute [] 0 r → r = result) ∧
    (∀ absolute place links, resolveInner tree 41 absolute 0 = .ok (place,links) →
      (∀ q, q <+: place → ∀ t, symlinkMetadata tree q ≠ .ok (.link t)) ∧
      (∀ k object, Names tree k [] absolute object →
        Names tree 0 [] (plain place) object ∧ place = object) ∧
      resolveInner tree 41 (plain place) 0 = .ok (place,0)) ∧
    (∀ currentDir path path' directory, tree.kind directory = some .dir →
      canonicalize tree (spelled currentDir path) = .ok directory →
      canonicalize tree (spelled currentDir path') = .ok directory →
      ∃ place, resolve tree currentDir path = .ok place ∧ resolve tree currentDir path' = .ok place ∧
        runLock place = runLock directory) := by
  refine ⟨fun absolute => ?_,fun absolute place links h => ?_,?_⟩
  · exact ⟨_,resolves_iff.mpr rfl,rfl,fun r h => (resolves_iff.mp h).symm⟩
  · have hrun := resolves_iff.mpr h
    have hs := resolves_settled hrun settled_root place links rfl
    refine ⟨fun q hq t ht => ?_,fun k object hn => ?_,resolves_iff.mp (settled_resolves place 0 hs)⟩
    · rcases hs q hq with hm | ⟨kind,hm,hk⟩
      · rw [ht] at hm
        cases hm
      · rw [ht,Except.ok.injEq] at hm
        subst hm
        cases hk
    · obtain rfl := resolves_names hrun real_root place links rfl hn
      exact ⟨names_plain (names_real hn real_root),rfl⟩
  · have hone : ∀ currentDir path directory,
        canonicalize tree (spelled currentDir path) = .ok directory →
        resolve tree currentDir path = .ok directory := by
      intro currentDir path directory h
      obtain ⟨k,hk,hn⟩ := walk_names.mp h
      have hrun := resolves_iff.mp (names_resolves hn real_root 0 (by simpa [maxSymlinks] using hk))
      show (resolveInner tree 41 (spelled currentDir path) 0 >>= _) = _
      rw [hrun]
      rfl
    intro currentDir path path' directory _ h h'
    exact ⟨directory,hone _ _ _ h,hone _ _ _ h',rfl⟩

def sampleKind (p : Place) : Option Kind :=
  if p = [] ∨ p = ["state"] then some .dir
  else if p = ["current"] then some (.link ⟨false,[.normal "state"]⟩) else none

def sampleTree : Tree where
  kind := sampleKind
  root := rfl
  parent p n h := by
    have hp : p++[n] = ["state"] ∨ p++[n] = ["current"] := by
      by_contra hne
      obtain ⟨hstate,hcurrent⟩ := not_or.mp hne
      exact h (by simp [sampleKind, hstate, hcurrent])
    have hnil : p = [] := by
      rcases hp with hp | hp <;> simpa using congrArg List.dropLast hp
    rw [hnil]
    rfl

/-- Both names of the directory find the same lock, behind no link. -/
theorem path_resolution_sample :
    (∃ place, resolve sampleTree [] ⟨true,[.normal "current"]⟩ = .ok place ∧
      resolve sampleTree [.normal "state"] ⟨false,[.curDir]⟩ = .ok place ∧
      runLock place = ["state","run.lock"]) ∧
    ∀ q, q <+: ["state"] → ∀ t, symlinkMetadata sampleTree q ≠ .ok (.link t) :=
  ⟨(path_resolution sampleTree).2.2 [.normal "state"] ⟨true,[.normal "current"]⟩ ⟨false,[.curDir]⟩
      ["state"] rfl rfl rfl,
    ((path_resolution sampleTree).2.1 [.normal "current"] ["state"] 1 rfl).1⟩

end EvmState.Paths
