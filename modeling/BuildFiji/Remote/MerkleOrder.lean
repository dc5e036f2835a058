import BuildFiji.Remote.MerkleCanonical
import BuildFiji.Lib.Text
import Mathlib.Data.List.Sort

/-!
# The order of the inputs

The tree of a list of inputs that do not clash is that of every permutation of
it, and its directories are canonical. A list in which a path occurs once for a
file and once for a symlink, or goes on below another, is accepted in some order.
-/

set_option autoImplicit false
set_option linter.all false

namespace BuildFiji.Remote

open SortedAssoc

section Paths

theorem components_inj {p q : String} : components p = components q ↔ p = q := by
  refine ⟨fun h => ?_,fun h => h ▸ rfl⟩
  have hsplit := List.map_injective_iff.mpr (fun _ _ => String.ofList_inj.mp) h
  rw [← String.toList_inj, ← @List.intercalate_splitOn _ p.toList _ _ '/', hsplit,
    List.intercalate_splitOn]

/-- One path is a proper prefix of the other, up to a `/`. -/
def ProperPrefix (p q : String) : Prop := ∃ r, q = p ++ "/" ++ r

theorem below_components {p q : String} :
    Below (components p) (components q) ↔ ProperPrefix p q := by
  constructor
  · rintro ⟨⟨s,hs⟩,hne⟩
    have hnil : s ≠ [] := by
      rintro rfl
      rw [List.append_nil] at hs
      exact hne hs
    have hsplit : q.toList.splitOn '/' = p.toList.splitOn '/' ++ s.map String.toList := by
      have h := congrArg (List.map String.toList) hs
      simpa [components] using h.symm
    refine ⟨.ofList (['/'].intercalate (s.map String.toList)),String.toList_inj.mp ?_⟩
    rw [← @List.intercalate_splitOn _ q.toList _ _ '/', hsplit,
      Text.intercalate_append _ (List.splitOn_ne_nil _ _) (by simpa using hnil),
      List.intercalate_splitOn]
    simp
  · rintro ⟨r,rfl⟩
    have h : components (p ++ "/" ++ r) = components p ++ components r := by
      have hlist : (p ++ "/" ++ r).toList = p.toList ++ '/'::r.toList := by simp
      rw [components, hlist, List.splitOn_append_cons_self, List.map_append]
      rfl
    rw [h]
    refine ⟨List.prefix_append _ _,fun heq => components_ne_nil r ?_⟩
    simpa using heq

end Paths

section Order

theorem foldlM_perm {xs ys : List Input} (hp : xs.Perm ys) {t : Tree} {done : List Input}
    (ht : t.Ordered) (h : Holds t done) (hv : ∀ x ∈ xs, ValidPath x.path)
    (hd : ∀ x ∈ done, ∀ y ∈ xs, ¬Clash x y)
    (hx : xs.Pairwise fun x y => ¬Clash x y ∧ ¬Clash y x) :
    xs.foldlM Tree.insert t = ys.foldlM Tree.insert t := by
  induction hp generalizing t done with
  | nil => rfl
  | cons x hp ih =>
    obtain ⟨hhead,htail⟩ := List.pairwise_cons.mp hx
    obtain ⟨u,hu⟩ := (h.insert_ok_iff x).mpr ⟨hv x List.mem_cons_self,
      fun y hy => hd y hy x List.mem_cons_self⟩
    simp only [List.foldlM_cons, hu]
    refine ih (Tree.Ordered.insertAt ht hu) (h.insert hu)
      (fun y hy => hv y (List.mem_cons_of_mem _ hy)) (fun y hy z hz => ?_) htail
    rcases List.mem_append.mp hy with hy | hy
    · exact hd y hy z (List.mem_cons_of_mem _ hz)
    · rw [List.mem_singleton.mp hy]
      exact (hhead z hz).1
  | swap x y l =>
    obtain ⟨hhead,htail⟩ := List.pairwise_cons.mp hx
    have hxy := hhead x List.mem_cons_self
    have hok : ∀ {a b : Input}, a ∈ y::x::l → b ∈ y::x::l → ¬Clash a b →
        ∃ u v, t.insert a = .ok u ∧ u.insert b = .ok v := by
      intro a b ha hb hab
      obtain ⟨u,hu⟩ := (h.insert_ok_iff a).mpr ⟨hv a ha,fun z hz => hd z hz a ha⟩
      obtain ⟨v,hv'⟩ := ((h.insert hu).insert_ok_iff b).mpr ⟨hv b hb,fun z hz => by
        rcases List.mem_append.mp hz with hz | hz
        · exact hd z hz b hb
        · rw [List.mem_singleton.mp hz]
          exact hab⟩
      exact ⟨u,v,hu,hv'⟩
    obtain ⟨u,v,hu,hv1⟩ := hok (by simp) (by simp) hxy.1
    obtain ⟨u',v',hu',hv2⟩ := hok (by simp) (by simp) hxy.2
    have heq : v = v' := Tree.insertAt_comm ht hu hv1 hu' hv2
    subst heq
    have h1 : (y::x::l).foldlM Tree.insert t = l.foldlM Tree.insert v := by
      simp only [List.foldlM_cons, hu, bind, Except.bind, hv1]
    have h2 : (x::y::l).foldlM Tree.insert t = l.foldlM Tree.insert v := by
      simp only [List.foldlM_cons, hu', bind, Except.bind, hv2]
    rw [h1, h2]
  | trans hp hq ih ih' =>
    rw [ih ht h hv hd hx]
    exact ih' ht h (fun x hx => hv x (hp.mem_iff.mpr hx))
      (fun x hx y hy => hd x hx y (hp.mem_iff.mpr hy)) ((hp.pairwise_iff And.symm).mp hx)

end Order

section Directories

/-- Sorted by name, and no name in two of the lists. -/
structure CanonicalDirectory (d : Directory) : Prop where
  files : (d.files.map FileNode.name).Pairwise (· < ·)
  directories : (d.directories.map DirectoryNode.name).Pairwise (· < ·)
  symlinks : (d.symlinks.map SymlinkNode.name).Pairwise (· < ·)
  fileDirectory : ∀ name ∈ d.files.map FileNode.name, name ∉ d.directories.map DirectoryNode.name
  fileSymlink : ∀ name ∈ d.files.map FileNode.name, name ∉ d.symlinks.map SymlinkNode.name
  symlinkDirectory : ∀ name ∈ d.symlinks.map SymlinkNode.name,
    name ∉ d.directories.map DirectoryNode.name

/-- No two kinds of entry under one name, here and below. -/
inductive Clean : Tree → Prop where
  | node {files : List (String × FileNode)} {symlinks : List (String × SymlinkNode)}
      {dirs : List (String × Tree)} (hord : Tree.Ordered (.node files symlinks dirs))
      (hone : ∀ c s s', Tree.has s [c] (.node files symlinks dirs) = true →
        Tree.has s' [c] (.node files symlinks dirs) = true → s = s')
      (hsub : ∀ e ∈ dirs, Clean e.2) : Clean (.node files symlinks dirs)

theorem clean_of_one {t : Tree} (ht : t.Ordered)
    (h : ∀ p s s', Tree.has s p t = true → Tree.has s' p t = true → s = s') : Clean t := by
  induction ht with
  | node hfiles hsymlinks hdirs hnamed hnamed' hsub ih =>
    refine .node (.node hfiles hsymlinks hdirs hnamed hnamed' hsub) (fun c => h [c]) fun e he => ?_
    refine ih e he fun p s s' hs hs' => ?_
    have hfind := hdirs.find_eq.mpr he
    cases p with
    | nil => cases hs
    | cons next rest =>
      refine h (e.1::next::rest) s s' ?_ ?_
      · rw [Tree.has, hfind]
        exact hs
      · rw [Tree.has, hfind]
        exact hs'

section Finish
variable {digest : Directory → Digest}

theorem finishDirs_names (dirs : List (String × Tree)) (out : List Directory) :
    (Tree.finishDirs digest dirs out).1.map DirectoryNode.name = dirs.map Prod.fst := by
  induction dirs generalizing out with
  | nil => simp [Tree.finishDirs]
  | cons e dirs ih => simp [Tree.finishDirs, ih]

theorem finishDirs_canonical {dirs : List (String × Tree)}
    (h : ∀ e ∈ dirs, ∀ out, ∀ d ∈ (Tree.finish digest e.2 out).2, d ∈ out ∨ CanonicalDirectory d)
    (out : List Directory) :
    ∀ d ∈ (Tree.finishDirs digest dirs out).2, d ∈ out ∨ CanonicalDirectory d := by
  induction dirs generalizing out with
  | nil => exact fun d hd => .inl hd
  | cons e dirs ih =>
    intro d hd
    rw [Tree.finishDirs] at hd
    rcases ih (fun f hf => h f (List.mem_cons_of_mem _ hf)) _ d hd with hd | hd
    · exact h e List.mem_cons_self out d hd
    · exact .inr hd

theorem sorted_names {β : Type} {l : List (String × β)} (hl : Sorted l) :
    (l.map Prod.fst).Pairwise (· < ·) := List.pairwise_map.mpr hl

theorem mem_names {β : Type} {l : List (String × β)} (hl : Sorted l) {c : String} :
    c ∈ l.map Prod.fst ↔ (find c l).isSome = true := by
  rw [List.mem_map, Option.isSome_iff_exists]
  constructor
  · rintro ⟨e,he,rfl⟩
    exact ⟨e.2,hl.find_eq.mpr he⟩
  · rintro ⟨v,hv⟩
    exact ⟨(c,v),hl.find_eq.mp hv,rfl⟩

theorem named_values {β : Type} {l : List (String × β)} {name : β → String}
    (h : ∀ e ∈ l, name e.2 = e.1) : (l.map Prod.snd).map name = l.map Prod.fst := by
  rw [List.map_map]
  exact List.map_congr_left h

theorem finish_canonical {t : Tree} (ht : Clean t) (out : List Directory) :
    ∀ d ∈ (Tree.finish digest t out).2, d ∈ out ∨ CanonicalDirectory d := by
  induction ht generalizing out with
  | node hord hone hsub ih =>
    intro d hd
    rw [Tree.finish] at hd
    rcases List.mem_append.mp hd with hd | hd
    · exact finishDirs_canonical (fun e he out => ih e he out) out d hd
    · cases hord with
      | node hfiles hsymlinks hdirs hnamed hnamed' _ =>
        rw [List.mem_singleton.mp hd]
        refine .inr ⟨?_,?_,?_,fun c hc hc' => ?_,fun c hc hc' => ?_,fun c hc hc' => ?_⟩
        · rw [named_values hnamed]
          exact sorted_names hfiles
        · rw [finishDirs_names]
          exact sorted_names hdirs
        · rw [named_values hnamed']
          exact sorted_names hsymlinks
        · rw [named_values hnamed, mem_names hfiles] at hc
          rw [finishDirs_names, mem_names hdirs] at hc'
          cases hone c .file .dir hc hc'
        · rw [named_values hnamed, mem_names hfiles] at hc
          rw [named_values hnamed', mem_names hsymlinks] at hc'
          cases hone c .file .symlink hc hc'
        · rw [named_values hnamed', mem_names hsymlinks] at hc
          rw [finishDirs_names, mem_names hdirs] at hc'
          cases hone c .symlink .dir hc hc'

end Finish

end Directories

section Accepted

/-- Valid components, no path twice, and none that goes on below another. -/
structure WellFormed (xs : List Input) : Prop where
  valid : ∀ x ∈ xs, ValidPath x.path
  nodup : (xs.map Input.path).Nodup
  free : ∀ x ∈ xs, ∀ y ∈ xs, ¬ProperPrefix x.path y.path

/-- Two inputs of one kind at one path. -/
def SameKindTwice (xs : List Input) : Prop :=
  ¬xs.Pairwise fun x y => ¬(x.path = y.path ∧ x.kind.slot = y.kind.slot)

theorem clash_iff {x y : Input} :
    Clash x y ↔ ProperPrefix y.path x.path ∨ x.path = y.path ∧ x.kind.slot = y.kind.slot := by
  rw [Clash, below_components, components_inj, eq_comm, @eq_comm _ y.kind.slot]

theorem WellFormed.noClash {xs : List Input} (h : WellFormed xs) :
    xs.Pairwise fun x y => ¬Clash x y ∧ ¬Clash y x := by
  refine (List.pairwise_map.mp h.nodup).imp_of_mem fun {x y} hx hy hne => ?_
  rw [clash_iff, clash_iff]
  constructor
  · rintro (hp | ⟨heq,-⟩)
    · exact h.free y hy x hx hp
    · exact hne heq
  · rintro (hp | ⟨heq,-⟩)
    · exact h.free x hx y hy hp
    · exact hne heq.symm

theorem WellFormed.one {xs : List Input} (h : WellFormed xs) {t : Tree} (ht : Holds t xs)
    (p : List String) (s s' : Slot) (hs : Tree.has s p t = true) (hs' : Tree.has s' p t = true) :
    s = s' := by
  have hdir : ∀ x ∈ xs, ∀ y ∈ xs, p = components x.path → ¬Below p (components y.path) := by
    rintro x hx y hy rfl hb
    exact h.free x hx y hy (below_components.mp hb)
  obtain ⟨x,hx,⟨hp,rfl⟩ | ⟨rfl,-,hb⟩⟩ := (ht s p).mp hs
  · obtain ⟨y,hy,⟨hq,rfl⟩ | ⟨rfl,-,hb⟩⟩ := (ht s' p).mp hs'
    · have hpath : x.path = y.path := components_inj.mp (hp.symm.trans hq)
      rw [List.inj_on_of_nodup_map h.nodup hx hy hpath]
    · exact absurd hb (hdir x hx y hy hp)
  · obtain ⟨y,hy,⟨hq,rfl⟩ | ⟨rfl,-,-⟩⟩ := (ht s' p).mp hs'
    · exact absurd hb (hdir y hy x hx hq)
    · rfl

variable (encode : Directory → List UInt8) (sha256 : List UInt8 → List UInt8)

theorem merkleTree_ok_iff (xs : List Input) :
    (∃ r, merkleTree encode sha256 xs = .ok r) ↔
      (∀ x ∈ xs, ValidPath x.path) ∧ xs.Pairwise fun x y => ¬Clash x y := by
  have h := holds_empty.foldlM_ok_iff xs
  simp only [List.not_mem_nil, false_implies, implies_true, true_and] at h
  rw [← h, merkleTree]
  cases xs.foldlM Tree.insert Tree.empty with
  | error e => simp
  | ok root => simp

/-- Accepted exactly when well formed, the same in every order, and canonical. -/
structure CanonicalMerkle (xs : List Input) : Prop where
  accepted : (∃ r, merkleTree encode sha256 xs = .ok r) ↔ WellFormed xs
  orderFree : ∀ ys, ys.Perm xs →
    (merkleTree encode sha256 ys).toOption = (merkleTree encode sha256 xs).toOption
  canonical : ∀ r, merkleTree encode sha256 xs = .ok r → ∀ d ∈ r.2, CanonicalDirectory d

variable {encode sha256}

theorem WellFormed.canonicalMerkle {xs : List Input} (h : WellFormed xs) :
    CanonicalMerkle encode sha256 xs := by
  refine ⟨⟨fun _ => h,fun _ => ?_⟩,fun ys hp => ?_,fun r hr d hd => ?_⟩
  · rw [merkleTree_ok_iff]
    exact ⟨h.valid,h.noClash.imp And.left⟩
  · have heq := foldlM_perm hp.symm Tree.ordered_empty holds_empty h.valid nofun h.noClash
    rw [merkleTree, merkleTree, heq]
  · rw [merkleTree] at hr
    split at hr
    · cases hr
    · next root hroot =>
      cases hr
      have hholds := holds_empty.foldlM hroot
      have hclean := clean_of_one (foldlM_ordered Tree.ordered_empty hroot) (h.one hholds)
      exact (finish_canonical hclean [] d hd).resolve_left List.not_mem_nil

/-- A list that no order of makes acceptable. -/
theorem canonicalMerkle_of_refused {xs : List Input}
    (h : ∀ ys, ys.Perm xs → ¬∃ r, merkleTree encode sha256 ys = .ok r) (hno : ¬WellFormed xs) :
    CanonicalMerkle encode sha256 xs := by
  have hnone : ∀ ys, ys.Perm xs → (merkleTree encode sha256 ys).toOption = none := by
    intro ys hp
    cases hm : merkleTree encode sha256 ys with
    | error e => rfl
    | ok r => exact absurd ⟨r,hm⟩ (h ys hp)
  refine ⟨⟨fun hr => absurd hr (h xs (.refl xs)),fun hw => absurd hw hno⟩,fun ys hp => ?_,
    fun r hr => absurd ⟨r,hr⟩ (h xs (.refl xs))⟩
  rw [hnone ys hp, hnone xs (.refl xs)]

/-- Shorter paths first, a list is refused only for what no order can mend. -/
theorem exists_accepted {xs : List Input} (hv : ∀ x ∈ xs, ValidPath x.path)
    (hk : ¬SameKindTwice xs) : ∃ ys, ys.Perm xs ∧ ∃ r, merkleTree encode sha256 ys = .ok r := by
  let le (x y : Input) : Prop := (components x.path).length ≤ (components y.path).length
  have hperm : (xs.insertionSort le).Perm xs := List.perm_insertionSort le xs
  have : Std.Total le := ⟨fun x y => le_total _ _⟩
  have : IsTrans Input le := ⟨fun x y z => le_trans⟩
  have hsorted : (xs.insertionSort le).Pairwise le := List.pairwise_insertionSort le xs
  refine ⟨xs.insertionSort le,hperm,(merkleTree_ok_iff _ _ _).mpr
    ⟨fun x hx => hv x (hperm.mem_iff.mp hx),?_⟩⟩
  have hkind := (hperm.pairwise_iff fun {x y} hne heq => hne ⟨heq.1.symm,heq.2.symm⟩).mpr
    (not_not.mp hk)
  refine hsorted.imp₂ (fun {x y} hle hne hclash => ?_) hkind
  rcases hclash with hb | heq
  · have hlen := hb.1.length_le
    exact hb.2 (hb.1.eq_of_length (by omega))
  · exact hne ⟨components_inj.mp heq.1.symm,heq.2.symm⟩

theorem merkle_canonical_iff (encode : Directory → List UInt8) (sha256 : List UInt8 → List UInt8)
    (xs : List Input) :
    CanonicalMerkle encode sha256 xs ↔
      WellFormed xs ∨ (∃ x ∈ xs, ¬ValidPath x.path) ∨ SameKindTwice xs := by
  constructor
  · intro h
    by_contra hno
    simp only [not_or, not_exists, not_and, not_not] at hno
    obtain ⟨hw,hv,hk⟩ := hno
    obtain ⟨ys,hp,r,hr⟩ := exists_accepted hv hk
    have hsame := h.orderFree ys hp
    rw [hr] at hsame
    apply hw
    apply h.accepted.mp
    cases hx : merkleTree encode sha256 xs with
    | error e =>
      rw [hx] at hsame
      cases hsame
    | ok r' => exact ⟨r',rfl⟩
  · rintro (hw | ⟨x,hx,hv⟩ | hk)
    · exact hw.canonicalMerkle
    · refine canonicalMerkle_of_refused (fun ys hp hok => ?_) fun hw => hv (hw.valid x hx)
      exact hv (((merkleTree_ok_iff _ _ _).mp hok).1 x (hp.mem_iff.mpr hx))
    · refine canonicalMerkle_of_refused (fun ys hp hok => hk ?_) fun hw => hk ?_
      · have hpair := ((merkleTree_ok_iff _ _ _).mp hok).2
        have hkind : ys.Pairwise fun x y => ¬(x.path = y.path ∧ x.kind.slot = y.kind.slot) :=
          hpair.imp fun hno heq => hno (clash_iff.mpr (.inr heq))
        exact (hp.pairwise_iff fun {x y} hne heq => hne ⟨heq.1.symm,heq.2.symm⟩).mp hkind
      · exact (List.pairwise_map.mp hw.nodup).imp fun hne heq => hne heq.1

/-- An empty file, and one below it. -/
def conflicting : List Input :=
  let empty : InputKind := .file
    ⟨"e3b0c44298fc1c149afbf4c8996fb92427ae41e4649b934ca495991b7852b855",0⟩ true
  [⟨"a",empty⟩,⟨"a/b",empty⟩]

theorem file_and_directory_accepted :
    ¬∀ (encode : Directory → List UInt8) (sha256 : List UInt8 → List UInt8) (xs : List Input),
      CanonicalMerkle encode sha256 xs := by
  intro h
  have hw : WellFormed conflicting :=
    (h (fun _ => []) (fun _ => []) conflicting).accepted.mp ⟨_,rfl⟩
  exact hw.free _ List.mem_cons_self _ (List.mem_cons_of_mem _ List.mem_cons_self) ⟨"b",by decide⟩

end Accepted

end BuildFiji.Remote
