import BuildFiji.Graph.Configuration
import BuildFiji.Remote.MerkleOrder

/-!
# The inputs in the root digest

A tree is determined by its digest, as far as digests of directories are, and the inputs by the
tree. The directories that are returned are all there are below the root.
-/

set_option autoImplicit false
set_option linter.all false

namespace BuildFiji.Remote

open SortedAssoc
open BuildFiji.Graph.Configuration (utf8 utf8_injective)

namespace Tree

/-- The file or symlink at a path. -/
def kindAt (s : Slot) : List String → Tree → Option InputKind
  | [], _ => none
  | [c], .node files symlinks _ =>
    match s with
    | .file => (find c files).map fun f => .file f.digest f.isExecutable
    | .symlink => (find c symlinks).map fun l => .symlink l.target
    | .dir => none
  | c::next::rest, .node _ _ dirs =>
    match find c dirs with
    | none => none
    | some sub => kindAt s (next::rest) sub

theorem kindAt_empty (s : Slot) (p : List String) : kindAt s p empty = none := by
  match p with
  | [] => rfl
  | [c] => cases s <;> rfl
  | c::next::rest => rfl

theorem kindAt_getD {s : Slot} {c next : String} {rest : List String} {files : List (String × FileNode)}
    {symlinks : List (String × SymlinkNode)} {dirs : List (String × Tree)} :
    kindAt s (next::rest) ((find c dirs).getD empty) =
      kindAt s (c::next::rest) (.node files symlinks dirs) := by
  rw [kindAt]
  cases find c dirs with
  | none => exact kindAt_empty s _
  | some sub => rfl

theorem addLeaf_kindAt {head : String} {kind : InputKind} {t t' : Tree}
    (h : addLeaf head kind t = .ok t') (s : Slot) (q : List String) :
    kindAt s q t' = if q = [head] ∧ s = kind.slot then some kind else kindAt s q t := by
  obtain ⟨files,symlinks,dirs⟩ := t
  match q with
  | [] => simp [kindAt]
  | [c] =>
    cases kind with
    | file digest executable =>
      obtain ⟨-,rfl⟩ := addLeaf_file h
      cases s <;> by_cases hc : c = head <;> simp [kindAt, InputKind.slot, hc, find_put_self, find_put_ne]
    | symlink target =>
      obtain ⟨-,rfl⟩ := addLeaf_symlink h
      cases s <;> by_cases hc : c = head <;> simp [kindAt, InputKind.slot, hc, find_put_self, find_put_ne]
  | c::next::rest =>
    cases kind with
    | file digest executable =>
      obtain ⟨-,rfl⟩ := addLeaf_file h
      simp [kindAt]
    | symlink target =>
      obtain ⟨-,rfl⟩ := addLeaf_symlink h
      simp [kindAt]

/-- An input is at its path afterwards, and all else is where it was. -/
theorem insertAt_kindAt {kind : InputKind} {p : List String} {t t' : Tree}
    (h : insertAt kind p t = .ok t') (s : Slot) (q : List String) :
    kindAt s q t' = if q = p ∧ s = kind.slot then some kind else kindAt s q t := by
  induction p generalizing t t' q with
  | nil => cases h
  | cons head p ih =>
    cases p with
    | nil => exact addLeaf_kindAt (insertAt_leaf h) s q
    | cons next rest =>
      obtain ⟨files,symlinks,dirs⟩ := t
      obtain ⟨sub,hsub,rfl⟩ := insertAt_descend h
      match q with
      | [] => simp [kindAt]
      | [c] => cases s <;> simp [kindAt]
      | c::d::q =>
        by_cases hc : c = head
        · subst hc
          have hmore := ih hsub (d::q)
          rw [@kindAt_getD _ _ _ _ files symlinks] at hmore
          have hnew : kindAt s (c::d::q) (.node files symlinks (put c sub dirs)) = kindAt s (d::q) sub := by
            rw [kindAt, find_put_self]
          rw [hnew, hmore]
          simp
        · simp [kindAt, find_put_ne hc, hc]

theorem has_of_kindAt {s : Slot} {p : List String} {t : Tree} {kind : InputKind}
    (h : kindAt s p t = some kind) : has s p t = true := by
  induction p generalizing t with
  | nil => cases h
  | cons c p ih =>
    obtain ⟨files,symlinks,dirs⟩ := t
    cases p with
    | nil =>
      cases s with
      | file =>
        obtain ⟨f,hf,-⟩ := Option.map_eq_some_iff.mp h
        simp [has, hf]
      | symlink =>
        obtain ⟨l,hl,-⟩ := Option.map_eq_some_iff.mp h
        simp [has, hl]
      | dir => cases h
    | cons next rest =>
      cases hsub : find c dirs with
      | none =>
        simp only [kindAt, hsub] at h
        cases h
      | some sub =>
        simp only [kindAt, hsub] at h
        simp only [has, hsub]
        exact ih h

end Tree

/-- The tree has the files and symlinks that were put into it, and no others. -/
theorem foldlM_kindAt {xs : List Input} {t t' : Tree} (hf : xs.foldlM Tree.insert t = .ok t')
    (s : Slot) (q : List String) (kind : InputKind) :
    Tree.kindAt s q t' = some kind ↔ Tree.kindAt s q t = some kind ∨
      ∃ x ∈ xs, components x.path = q ∧ x.kind = kind ∧ kind.slot = s := by
  induction xs generalizing t with
  | nil =>
    rw [List.foldlM_nil, Fallible.pure_ok] at hf
    simp [hf]
  | cons x xs ih =>
    rw [List.foldlM_cons, Fallible.bind_ok] at hf
    obtain ⟨u,hu,hf⟩ := hf
    have hnone : Tree.kindAt x.kind.slot (components x.path) t = none := by
      have hhas := ((Tree.insertAt_ok_iff _ _ _).mp ⟨u,hu⟩).2.2.2
      cases hk : Tree.kindAt x.kind.slot (components x.path) t with
      | none => rfl
      | some k =>
        rw [Tree.has_of_kindAt hk] at hhas
        cases hhas
    rw [ih hf, Tree.insertAt_kindAt hu]
    simp only [List.exists_mem_cons_iff]
    split
    · next hat =>
      obtain ⟨rfl,rfl⟩ := hat
      rw [hnone]
      constructor
      · rintro (h | h)
        · cases h
          exact .inr (.inl ⟨rfl,rfl,rfl⟩)
        · exact .inr (.inr h)
      · rintro (h | ⟨-,rfl,-⟩ | h)
        · cases h
        · exact .inl rfl
        · exact .inr h
    · next hat =>
      constructor
      · rintro (h | h)
        · exact .inl h
        · exact .inr (.inr h)
      · rintro (h | ⟨rfl,rfl,rfl⟩ | h)
        · exact .inl h
        · exact absurd ⟨rfl,rfl⟩ hat
        · exact .inr h

section Digests
variable {digest : Directory → Digest}

theorem named_inj {β : Type} {name : β → String} {l m : List (String × β)}
    (hl : ∀ e ∈ l, name e.2 = e.1) (hm : ∀ e ∈ m, name e.2 = e.1)
    (h : l.map Prod.snd = m.map Prod.snd) : l = m := by
  have hback : ∀ {k : List (String × β)}, (∀ e ∈ k, name e.2 = e.1) →
      (k.map Prod.snd).map (fun v => (name v,v)) = k := by
    intro k hk
    rw [List.map_map]
    refine (List.map_congr_left fun e he => ?_).trans (List.map_id k)
    exact Prod.ext (hk e he) rfl
  rw [← hback hl, h, hback hm]

theorem finishDirs_inj {dirs : List (String × Tree)}
    (ih : ∀ e ∈ dirs, ∀ t', Tree.Ordered t' → ∀ out out', (Tree.finish digest e.2 out).1 =
      (Tree.finish digest t' out').1 → e.2 = t')
    {dirs' : List (String × Tree)} (hsub' : ∀ e ∈ dirs', Tree.Ordered e.2) (out out' : List Directory)
    (h : (Tree.finishDirs digest dirs out).1 = (Tree.finishDirs digest dirs' out').1) : dirs = dirs' := by
  induction dirs generalizing dirs' out out' with
  | nil =>
    cases dirs' with
    | nil => rfl
    | cons e' dirs' => simp [Tree.finishDirs] at h
  | cons e dirs ihl =>
    cases dirs' with
    | nil => simp [Tree.finishDirs] at h
    | cons e' dirs' =>
      rw [Tree.finishDirs, Tree.finishDirs] at h
      obtain ⟨hnode,hrest⟩ := List.cons.inj h
      obtain ⟨hname,hdigest⟩ := DirectoryNode.mk.inj hnode
      have hsub := ih e List.mem_cons_self e'.2 (hsub' e' List.mem_cons_self) _ _ hdigest
      rw [ihl (fun f hf => ih f (List.mem_cons_of_mem _ hf)) (fun f hf => hsub' f (List.mem_cons_of_mem _ hf)) _ _ hrest,
        show e = e' from Prod.ext hname hsub]

/-- Trees with one digest are the same. -/
theorem finish_inj (hinj : Function.Injective digest) {t : Tree} (ht : t.Ordered) {t' : Tree} (ht' : t'.Ordered)
    (out out' : List Directory) (h : (Tree.finish digest t out).1 = (Tree.finish digest t' out').1) : t = t' := by
  induction ht generalizing t' out out' with
  | node _ _ _ hnamed hlinks _ ih =>
    cases ht' with
    | node _ _ _ hnamed' hlinks' hsub' =>
      rw [Tree.finish, Tree.finish] at h
      obtain ⟨hfiles,hdirs,hsymlinks⟩ := Directory.mk.inj (hinj h)
      rw [named_inj hnamed hnamed' hfiles, named_inj hlinks hlinks' hsymlinks,
        finishDirs_inj (fun e he t' ht' out out' => ih e he ht' out out') hsub' _ _ hdirs]

/-- Each directory's subdirectories are there too. -/
def Closed (digest : Directory → Digest) (dirs : List Directory) : Prop :=
  ∀ d ∈ dirs, ∀ node ∈ d.directories, ∃ d' ∈ dirs, digest d' = node.digest

/-- What was there stays, it stays closed, and the digest is that of the last directory. -/
theorem finish_closed {t : Tree} (ht : t.Ordered) {out : List Directory} (h : Closed digest out) :
    (∀ d ∈ out, d ∈ (Tree.finish digest t out).2) ∧ Closed digest (Tree.finish digest t out).2 ∧
      ∃ root, (Tree.finish digest t out).2.getLast? = some root ∧
        digest root = (Tree.finish digest t out).1 := by
  induction ht generalizing out with
  | @node files symlinks dirs _ _ _ _ _ hsub ih =>
    have hdirs : ∀ l : List (String × Tree), (∀ e ∈ l, e ∈ dirs) → ∀ out, Closed digest out →
        (∀ d ∈ out, d ∈ (Tree.finishDirs digest l out).2) ∧ Closed digest (Tree.finishDirs digest l out).2 ∧
          ∀ node ∈ (Tree.finishDirs digest l out).1,
            ∃ d ∈ (Tree.finishDirs digest l out).2, digest d = node.digest := by
      intro l
      induction l with
      | nil => exact fun _ out hout => ⟨fun _ hd => hd,hout,fun _ hn => absurd hn List.not_mem_nil⟩
      | cons e l ihl =>
        intro hl out hout
        obtain ⟨hkept,hclosed,root,hroot,hdigest⟩ := ih e (hl e List.mem_cons_self) hout
        obtain ⟨hkept',hclosed',hnodes⟩ := ihl (fun f hf => hl f (List.mem_cons_of_mem _ hf)) _ hclosed
        rw [Tree.finishDirs]
        refine ⟨fun d hd => hkept' d (hkept d hd),hclosed',fun node hn => ?_⟩
        rcases List.mem_cons.mp hn with rfl | hn
        · exact ⟨root,hkept' root (List.mem_of_getLast? hroot),hdigest⟩
        · exact hnodes node hn
    obtain ⟨hkept,hclosed,hnodes⟩ := hdirs dirs (fun _ he => he) out h
    rw [Tree.finish]
    refine ⟨fun d hd => List.mem_append_left _ (hkept d hd),fun d hd node hn => ?_,_,List.getLast?_concat,rfl⟩
    rcases List.mem_append.mp hd with hd | hd
    · obtain ⟨d',hd',heq⟩ := hclosed d hd node hn
      exact ⟨d',List.mem_append_left _ hd',heq⟩
    · rw [List.mem_singleton.mp hd] at hn
      obtain ⟨d',hd',heq⟩ := hnodes node hn
      exact ⟨d',List.mem_append_left _ hd',heq⟩

/-- The directories that digests lead to, from the root's on. -/
inductive Reachable (digest : Directory → Digest) (root : Digest) : Directory → Prop where
  | root (d : Directory) (h : digest d = root) : Reachable digest root d
  | entered (d d' : Directory) (node : DirectoryNode) (hd : Reachable digest root d) (hn : node ∈ d.directories)
      (h : digest d' = node.digest) : Reachable digest root d'

theorem reachable_mem (hinj : Function.Injective digest) {dirs : List Directory} (hclosed : Closed digest dirs)
    {root : Digest} (hroot : ∃ d ∈ dirs, digest d = root) {d : Directory} (h : Reachable digest root d) :
    d ∈ dirs := by
  induction h with
  | root d h =>
    obtain ⟨r,hr,heq⟩ := hroot
    rwa [← hinj (heq.trans h.symm)]
  | entered d d' node _ hn h ih =>
    obtain ⟨r,hr,heq⟩ := hclosed d ih node hn
    rwa [← hinj (heq.trans h.symm)]

end Digests

section Roots
variable {encode : Directory → List UInt8} {sha256 : List UInt8 → List UInt8}

theorem WellFormed.perm {xs ys : List Input} (hxs : WellFormed xs) (hys : WellFormed ys) {t : Tree}
    (hx : xs.foldlM Tree.insert Tree.empty = .ok t) (hy : ys.foldlM Tree.insert Tree.empty = .ok t) :
    xs.Perm ys := by
  have hsub : ∀ {as bs : List Input}, as.foldlM Tree.insert Tree.empty = .ok t →
      bs.foldlM Tree.insert Tree.empty = .ok t → ∀ a ∈ as, a ∈ bs := by
    intro as bs has hbs a ha
    have hat := (foldlM_kindAt has a.kind.slot (components a.path) a.kind).mpr (.inr ⟨a,ha,rfl,rfl,rfl⟩)
    rcases (foldlM_kindAt hbs _ _ _).mp hat with hnone | ⟨b,hb,hpath,hkind,-⟩
    · rw [Tree.kindAt_empty] at hnone
      cases hnone
    · have heq : b = a := by
        obtain ⟨path,kind⟩ := a
        obtain ⟨path',kind'⟩ := b
        rw [components_inj] at hpath
        cases hpath
        cases hkind
        rfl
      exact heq ▸ hb
  exact (List.perm_ext_iff_of_nodup (List.Nodup.of_map _ hxs.nodup) (List.Nodup.of_map _ hys.nodup)).mpr
    fun a => ⟨hsub hx hy a,hsub hy hx a⟩

/-- Lists of inputs with one root digest are permutations of each other; all directories that the digests
lead to from the root are returned, the root last. -/
theorem merkle_root_determines (hinj : Function.Injective (digestOfMessage encode sha256)) {xs ys : List Input}
    (hxs : WellFormed xs) (hys : WellFormed ys) :
    ∃ d dirs d' dirs', merkleTree encode sha256 xs = .ok (d,dirs) ∧ merkleTree encode sha256 ys = .ok (d',dirs') ∧
      (d = d' → xs.Perm ys) ∧ (∀ dir, Reachable (digestOfMessage encode sha256) d dir → dir ∈ dirs) ∧
      ∃ root, dirs.getLast? = some root ∧ digestOfMessage encode sha256 root = d := by
  have htree : ∀ {zs : List Input}, WellFormed zs → ∃ t, zs.foldlM Tree.insert Tree.empty = .ok t := by
    intro zs hzs
    have h := holds_empty.foldlM_ok_iff zs
    exact h.mpr ⟨hzs.valid,nofun,hzs.noClash.imp And.left⟩
  obtain ⟨t,ht⟩ := htree hxs
  obtain ⟨t',ht'⟩ := htree hys
  have hord := foldlM_ordered Tree.ordered_empty ht
  have hord' := foldlM_ordered Tree.ordered_empty ht'
  obtain ⟨-,hclosed,root,hroot,hdigest⟩ := @finish_closed (digestOfMessage encode sha256) t hord [] nofun
  refine ⟨_,_,_,_,by rw [merkleTree, ht],by rw [merkleTree, ht'],fun heq => ?_,fun dir hdir => ?_,root,hroot,hdigest⟩
  · have := finish_inj hinj hord hord' _ _ heq
    subst this
    exact hxs.perm hys ht ht'
  · exact reachable_mem hinj hclosed ⟨root,List.mem_of_getLast? hroot,hdigest⟩ hdir

end Roots

section Wire

/-- A field of bytes in the wire format, which is left out if it is empty. -/
def bytesField (tag : UInt8) (bytes : List UInt8) : List UInt8 :=
  if bytes = [] then [] else tag::Framing.frame bytes

/-- A message field, once for each message. -/
def messages (tag : UInt8) (bodies : List (List UInt8)) : List UInt8 :=
  bodies.flatMap fun body => tag::Framing.frame body

def numberField (tag : UInt8) (n : ℕ) : List UInt8 := if n = 0 then [] else tag::Framing.varint n

def Digest.wire (d : Digest) : List UInt8 := bytesField 0x0a (utf8 d.hash) ++ numberField 0x10 d.sizeBytes

def FileNode.wire (f : FileNode) : List UInt8 :=
  bytesField 0x0a (utf8 f.name) ++ (messages 0x12 [f.digest.wire] ++ if f.isExecutable then [0x20,1] else [])

def DirectoryNode.wire (d : DirectoryNode) : List UInt8 :=
  bytesField 0x0a (utf8 d.name) ++ messages 0x12 [d.digest.wire]

def SymlinkNode.wire (l : SymlinkNode) : List UInt8 :=
  bytesField 0x0a (utf8 l.name) ++ bytesField 0x12 (utf8 l.target)

def Directory.wire (d : Directory) : List UInt8 :=
  messages 0x0a (d.files.map FileNode.wire) ++
    (messages 0x12 (d.directories.map DirectoryNode.wire) ++ messages 0x1a (d.symlinks.map SymlinkNode.wire))

variable {tag : UInt8} {a b s t : List UInt8}

theorem bytesField_inj (hs : s.head? ≠ some tag) (ht : t.head? ≠ some tag)
    (h : bytesField tag a ++ s = bytesField tag b ++ t) : a = b ∧ s = t := by
  unfold bytesField at h
  split at h
  · next ha =>
    split at h
    · next hb => exact ⟨ha.trans hb.symm,h⟩
    · rw [List.nil_append] at h
      rw [h] at hs
      exact absurd rfl hs
  · split at h
    · rw [List.nil_append] at h
      rw [← h] at ht
      exact absurd rfl ht
    · exact Framing.frame_append_inj (List.cons.inj h).2

theorem messages_inj {as bs : List (List UInt8)} (hs : s.head? ≠ some tag) (ht : t.head? ≠ some tag)
    (h : messages tag as ++ s = messages tag bs ++ t) : as = bs ∧ s = t := by
  unfold messages at h
  induction as generalizing bs with
  | nil =>
    cases bs with
    | nil => exact ⟨rfl,h⟩
    | cons b bs =>
      rw [List.flatMap_nil, List.nil_append] at h
      rw [h] at hs
      exact absurd rfl hs
  | cons a as ih =>
    cases bs with
    | nil =>
      rw [List.flatMap_nil, List.nil_append] at h
      rw [← h] at ht
      exact absurd rfl ht
    | cons b bs =>
      rw [List.flatMap_cons, List.flatMap_cons, List.cons_append, List.cons_append, List.cons_append,
        List.cons_append, List.append_assoc, List.append_assoc] at h
      obtain ⟨rfl,hrest⟩ := Framing.frame_append_inj (List.cons.inj h).2
      obtain ⟨rfl,hst⟩ := ih hrest
      exact ⟨rfl,hst⟩

theorem numberField_inj {m n : ℕ} (h : numberField tag m = numberField tag n) : m = n := by
  unfold numberField at h
  split at h
  · next hm =>
    split at h
    · next hn => exact hm.trans hn.symm
    · cases h
  · split at h
    · cases h
    · have := (List.cons.inj h).2
      rw [← List.append_nil (Framing.varint m), ← List.append_nil (Framing.varint n)] at this
      exact (Framing.varint_append_inj m n this).1

theorem numberField_head {n : ℕ} (h : tag ≠ 0x10) : (numberField 0x10 n).head? ≠ some tag := by
  unfold numberField
  split
  · simp
  · simpa using h.symm

theorem bytesField_head {tag' : UInt8} (h : tag ≠ tag') : (bytesField tag' a).head? ≠ some tag := by
  unfold bytesField
  split
  · simp
  · simpa using h.symm

theorem messages_head {tag' : UInt8} (h : tag ≠ tag') {bodies : List (List UInt8)} (hs : s.head? ≠ some tag) :
    (messages tag' bodies ++ s).head? ≠ some tag := by
  cases bodies with
  | nil => exact hs
  | cons body bodies => simpa [messages] using h.symm

theorem Digest.wire_injective : Function.Injective Digest.wire := by
  rintro ⟨hash,size⟩ ⟨hash',size'⟩ h
  obtain ⟨hh,hs⟩ := bytesField_inj (numberField_head (by decide)) (numberField_head (by decide)) h
  rw [show hash = hash' from utf8_injective hh, show size = size' from numberField_inj hs]

theorem FileNode.wire_injective : Function.Injective FileNode.wire := by
  rintro ⟨name,digest,executable⟩ ⟨name',digest',executable'⟩ h
  have hexec : ∀ {tag : UInt8} (x : Bool), tag ≠ 0x20 →
      (if x then [0x20,1] else [] : List UInt8).head? ≠ some tag := by
    intro tag x htag
    cases x
    · simp
    · simpa using htag.symm
  obtain ⟨hname,h⟩ := bytesField_inj (messages_head (by decide) (hexec _ (by decide)))
    (messages_head (by decide) (hexec _ (by decide))) h
  obtain ⟨hdigest,h⟩ := messages_inj (hexec _ (by decide)) (hexec _ (by decide)) h
  have hx : executable = executable' := by
    cases executable <;> cases executable' <;> simp at h ⊢
  rw [show name = name' from utf8_injective hname,
    show digest = digest' from Digest.wire_injective (List.cons.inj hdigest).1, hx]

theorem DirectoryNode.wire_injective : Function.Injective DirectoryNode.wire := by
  rintro ⟨name,digest⟩ ⟨name',digest'⟩ h
  have hhead : ∀ d : Digest, (messages 0x12 [d.wire]).head? ≠ some 0x0a := fun d => by simp [messages]
  obtain ⟨hname,h⟩ := bytesField_inj (hhead digest) (hhead digest') h
  rw [← List.append_nil (messages _ _), ← List.append_nil (messages _ [digest'.wire])] at h
  obtain ⟨hdigest,-⟩ := messages_inj (by simp) (by simp) h
  rw [show name = name' from utf8_injective hname,
    show digest = digest' from Digest.wire_injective (List.cons.inj hdigest).1]

theorem SymlinkNode.wire_injective : Function.Injective SymlinkNode.wire := by
  rintro ⟨name,target⟩ ⟨name',target'⟩ h
  obtain ⟨hname,h⟩ := bytesField_inj (bytesField_head (by decide)) (bytesField_head (by decide)) h
  rw [← List.append_nil (bytesField _ _), ← List.append_nil (bytesField _ (utf8 target'))] at h
  obtain ⟨htarget,-⟩ := bytesField_inj (by simp) (by simp) h
  rw [show name = name' from utf8_injective hname, show target = target' from utf8_injective htarget]

theorem Directory.wire_injective : Function.Injective Directory.wire := by
  rintro ⟨files,directories,symlinks⟩ ⟨files',directories',symlinks'⟩ h
  have hlinks : ∀ {tag : UInt8} (l : List (List UInt8)), tag ≠ 0x1a → (messages 0x1a l).head? ≠ some tag := by
    intro tag l htag
    have := @messages_head tag [] 0x1a htag l (by simp)
    rwa [List.append_nil] at this
  obtain ⟨hfiles,h⟩ := messages_inj (messages_head (by decide) (hlinks _ (by decide)))
    (messages_head (by decide) (hlinks _ (by decide))) h
  obtain ⟨hdirs,h⟩ := messages_inj (hlinks _ (by decide)) (hlinks _ (by decide)) h
  rw [← List.append_nil (messages _ _), ← List.append_nil (messages _ (symlinks'.map _))] at h
  obtain ⟨hsymlinks,-⟩ := messages_inj (by simp) (by simp) h
  rw [show files = files' from FileNode.wire_injective.list_map hfiles,
    show directories = directories' from DirectoryNode.wire_injective.list_map hdirs,
    show symlinks = symlinks' from SymlinkNode.wire_injective.list_map hsymlinks]

end Wire

/-- One file in a directory, with a hash that keeps all it hashes. -/
theorem merkle_root_determines_wire :
    ∃ d dirs d' dirs', merkleTree Directory.wire id [⟨"a/b",.file ⟨"",0⟩ true⟩] = .ok (d,dirs) ∧
      merkleTree Directory.wire id [⟨"a/b",.file ⟨"",0⟩ true⟩] = .ok (d',dirs') ∧
      (d = d' → [Input.mk "a/b" (.file ⟨"",0⟩ true)].Perm [⟨"a/b",.file ⟨"",0⟩ true⟩]) ∧
      (∀ dir, Reachable (digestOfMessage Directory.wire id) d dir → dir ∈ dirs) ∧
      ∃ root, dirs.getLast? = some root ∧ digestOfMessage Directory.wire id root = d := by
  have hinj : Function.Injective (digestOfMessage Directory.wire id) := by
    intro a b h
    exact Directory.wire_injective (Framing.hex_injective (String.ofList_inj.mp (Digest.mk.inj h).1))
  have hwell : WellFormed [⟨"a/b",.file ⟨"",0⟩ true⟩] := by
    refine ⟨?_,by simp,?_⟩
    · intro x hx
      cases List.mem_singleton.mp hx
      unfold ValidPath
      decide
    · intro x hx y hy
      cases List.mem_singleton.mp hx
      cases List.mem_singleton.mp hy
      rw [← below_components]
      exact fun h => h.2 rfl
  exact merkle_root_determines hinj hwell hwell

end BuildFiji.Remote
