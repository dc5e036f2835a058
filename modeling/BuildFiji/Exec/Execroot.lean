import BuildFiji.Lib.Links

/-!
# The execroot

A directory with a link for each top-level entry of the workspace and, below `external`, one
for each repository that was made. It is brought up to date before each build.
-/

set_option autoImplicit false
set_option linter.all false

namespace BuildFiji.Execroot

open BuildFiji.Links

/-- A file's name: a text, or bytes that are none. -/
inductive Name where
  | text (t : List Char)
  | bytes (b : List UInt8)
deriving DecidableEq

def Name.toStr : Name → Option (List Char)
  | .text t => some t
  | .bytes _ => none

abbrev Path := List (Step Name)

abbrev Disk := World Name (List UInt8)

structure Layout where
  workspace : Path
  outputBase : List Name

namespace Layout

variable (layout : Layout)

def execroot : List Name := layout.outputBase ++ [.text "execroot".toList] ++ [.text "_main".toList]

def bazelOut : List Name := layout.execroot ++ [.text "bazel-out".toList]

/-- Where the repositories that are not the main one are made. -/
def external : List Name := layout.outputBase ++ [.text "external".toList]

/-- Where the links to the repositories are. -/
def links : List Name := layout.execroot ++ [.text "external".toList]

end Layout

variable (limit : ℕ)

/-- They are compared component by component. -/
def samePath (a b : Path) : Bool := a.filter (· ≠ .here) = b.filter (· ≠ .here)

def linkNew («from» «to» : Path) (w : Disk) : Except Errno (Except String Unit) × Disk :=
  match symlink limit true «from» «to» w with
  | (.ok (),w) => (.ok (.ok ()),w)
  | (.error e,w) => (.error e,w)

/-- `to` as a link to `from`, if nothing but a link is in the way. -/
def link («from» «to» : Path) (w : Disk) : Except Errno (Except String Unit) × Disk :=
  match readLink w.files limit «to» with
  | .ok (absolute,current) =>
    if absolute ∧ samePath current «from» then (.ok (.ok ()),w)
    else match removeFile limit «to» w with
      | (.ok (),w) => linkNew limit «from» «to» w
      | (.error e,w) => (.error e,w)
  | .error .notFound => linkNew limit «from» «to» w
  | .error _ => (.ok (.error "is not a symlink"),w)

def linkAll («from» «to» : Path) (skipped : Name → Bool) : List Name → Disk → Outcome Name (List UInt8)
  | [], w => (.ok (),w)
  | name::names, w =>
    if skipped name then linkAll «from» «to» skipped names w
    else match link limit («from» ++ [.name name]) («to» ++ [.name name]) w with
      | (.ok _,w) => linkAll «from» «to» skipped names w
      | (.error e,w) => (.error e,w)

/-- The links of a directory that lead nowhere. -/
def removeDangling (dir : Path) : List Name → Disk → Outcome Name (List UInt8)
  | [], w => (.ok (),w)
  | name::names, w =>
    if there w.files limit (dir ++ [.name name]) then removeDangling dir names w
    else match removeFile limit (dir ++ [.name name]) w with
      | (.ok (),w) => removeDangling dir names w
      | (.error e,w) => (.error e,w)

/-- The convenience links, and what is no text. -/
def ofWorkspace (name : Name) : Bool :=
  match name.toStr with
  | none => true
  | some text => "bazel-".toList.isPrefixOf text ∨ text = "bazel-out".toList

/-- What is beside the repositories. -/
def besideRepos (name : Name) : Bool :=
  match name.toStr with
  | none => false
  | some text => text.head? = some '.'

def linkRepos (layout : Layout) (w : Disk) : Outcome Name (List UInt8) :=
  match readDir w.files limit (plain layout.external) with
  | .ok repos => linkAll limit (plain layout.external) (plain layout.links) besideRepos repos w
  | .error _ => (.ok (),w)

def prepareLinks (layout : Layout) (w : Disk) : Outcome Name (List UInt8) :=
  match createDirAll limit (plain layout.links) w with
  | (.error e,w) => (.error e,w)
  | (.ok (),w) =>
    match readDir w.files limit (plain layout.links) with
    | .error e => (.error e,w)
    | .ok names =>
      match removeDangling limit (plain layout.links) names w with
      | (.error e,w) => (.error e,w)
      | (.ok (),w) => linkRepos limit layout w

def prepare (layout : Layout) (w : Disk) : Outcome Name (List UInt8) :=
  match createDirAll limit (plain layout.bazelOut) w with
  | (.error e,w) => (.error e,w)
  | (.ok (),w) =>
    match readDir w.files limit layout.workspace with
    | .error e => (.error e,w)
    | .ok names =>
      match linkAll limit layout.workspace (plain layout.execroot) ofWorkspace names w with
      | (.error e,w) => (.error e,w)
      | (.ok (),w) => prepareLinks limit layout w

end BuildFiji.Execroot

/-!
## The execroot and the workspace

Bringing the execroot up to date writes to the output base alone, if what stands for the
links to the repositories is a directory of the execroot: an entry `external` of the
workspace must not have become a link there before.
-/

namespace BuildFiji.Execroot

open BuildFiji.Links

abbrev Tree := Files Name (List UInt8)

/-- Nothing, or a link. -/
def Loose (t : Tree) (place : List Name) : Prop := ∀ v, t.node place = some v → ∃ absolute target, v = .link absolute target

/-- A link to the path. -/
def Leads (t : Tree) (place : List Name) (path : Path) : Prop :=
  ∃ target, t.node place = some (.link true target) ∧ samePath target path = true

section Linking

variable {limit : ℕ} {w w' : Disk} {dir : List Name} {c : Name} {path : Path}

theorem Leads.loose {t : Tree} (h : Leads t dir path) : Loose t dir := by
  obtain ⟨target,hnode,-⟩ := h
  intro v hv
  exact ⟨true,target,Option.some.inj (hv.symm.trans hnode)⟩

theorem loose_of_none {t : Tree} (h : t.node dir = none) : Loose t dir := by
  intro v hv
  rw [h] at hv
  cases hv

theorem not_loose_of_dir {t : Tree} (h : IsDirAt t dir) : ¬ Loose t dir := by
  intro hloose
  obtain ⟨_,_,heq⟩ := hloose _ h
  cases heq

theorem loose_congr {t t' : Tree} (h : t'.node dir = t.node dir) : Loose t dir ↔ Loose t' dir := by
  rw [Loose, Loose, h]

theorem ne_below (dir : List Name) (c : Name) : dir ≠ dir ++ [c] := by simp

theorem linkNew_plain (limit : ℕ) (path : Path) (h : IsDirAt w.files dir) (hnone : w.files.node (dir ++ [c]) = none) :
    ∃ w', linkNew limit path (plain (dir ++ [c])) w = (.ok (.ok ()),w') ∧
      ChangedAt (· = dir ++ [c]) w w' ∧ Leads w'.files (dir ++ [c]) path := by
  obtain ⟨w',hmade,hchanged,hnode⟩ := symlink_plain limit h hnone true path
  refine ⟨w',by rw [linkNew, hmade],hchanged,path,hnode,?_⟩
  exact decide_eq_true rfl

/-- What is changed is nothing or a link before and after. -/
structure LinkedAt (w w' : Disk) (place : List Name) (path : Path) : Prop where
  changed : ChangedAt (fun q => Loose w.files q ∧ q = place) w w'
  loose : ∀ q, Loose w.files q ↔ Loose w'.files q
  leads : Loose w.files place → Leads w'.files place path

theorem LinkedAt.same {place : List Name} (h : Loose w.files place → Leads w.files place path) :
    LinkedAt w w place path := ⟨.refl _ w,fun _ => Iff.rfl,h⟩

theorem LinkedAt.made {place : List Name} (hchanged : ChangedAt (· = place) w w') (hloose : Loose w.files place)
    (hleads : Leads w'.files place path) : LinkedAt w w' place path := by
  refine ⟨hchanged.mono fun q hq => ⟨hq ▸ hloose,hq⟩,fun q => ?_,fun _ => hleads⟩
  by_cases hq : q = place
  · rw [hq]
    exact iff_of_true hloose hleads.loose
  · exact loose_congr (hchanged.node hq)

theorem link_plain (limit : ℕ) (path : Path) (h : IsDirAt w.files dir) (c : Name) : ∃ r w',
    link limit path (plain (dir ++ [c])) w = (.ok r,w') ∧ LinkedAt w w' (dir ++ [c]) path := by
  rw [link, readLink_plain h]
  cases hnode : w.files.node (dir ++ [c]) with
  | none =>
    obtain ⟨w',hmade,hchanged,hleads⟩ := linkNew_plain limit path h hnode
    exact ⟨_,w',hmade,.made hchanged (loose_of_none hnode) hleads⟩
  | some v =>
    cases v with
    | dir => exact ⟨_,w,rfl,.same fun hloose => absurd hloose (not_loose_of_dir hnode)⟩
    | file data =>
      refine ⟨_,w,rfl,.same fun hloose => ?_⟩
      obtain ⟨_,_,heq⟩ := hloose _ hnode
      cases heq
    | link absolute target =>
      have hloose : Loose w.files (dir ++ [c]) := by
        intro v hv
        exact ⟨absolute,target,Option.some.inj (hv.symm.trans hnode)⟩
      dsimp only
      split
      · next hsame =>
        refine ⟨_,w,rfl,.same fun _ => ⟨target,?_,hsame.2⟩⟩
        rw [hnode, hsame.1]
      · obtain ⟨w₁,hgone,hchanged₁,hnone⟩ := removeFile_plain limit h hnode
        obtain ⟨w₂,hmade,hchanged₂,hleads⟩ := linkNew_plain limit path
          (hchanged₁.isDirAt (ne_below dir c) h) hnone
        rw [hgone]
        exact ⟨_,w₂,hmade,.made (hchanged₁.trans hchanged₂) hloose hleads⟩

/-- All that are not skipped lead there, if something else is not in their way. -/
theorem linkAll_plain (limit : ℕ) (path : Path) (skipped : Name → Bool) (h : IsDirAt w.files dir)
    (names : List Name) : ∃ w',
    linkAll limit path (plain dir) skipped names w = (.ok (),w') ∧
      ChangedAt (fun q => Loose w.files q ∧ ∃ c ∈ names, skipped c = false ∧ q = dir ++ [c]) w w' ∧
      (∀ q, Loose w.files q ↔ Loose w'.files q) ∧
      ∀ c ∈ names, skipped c = false → Loose w.files (dir ++ [c]) →
        Leads w'.files (dir ++ [c]) (path ++ [.name c]) := by
  induction names generalizing w with
  | nil => exact ⟨w,rfl,.refl _ w,fun _ => Iff.rfl,fun c hc => absurd hc List.not_mem_nil⟩
  | cons c names ih =>
    rw [linkAll]
    cases hskip : skipped c with
    | true =>
      obtain ⟨w',hmade,hchanged,hiff,hleads⟩ := ih h
      refine ⟨w',hmade,hchanged.mono ?_,hiff,fun d hd hnot => ?_⟩
      · exact fun q ⟨hloose,d,hd,hq⟩ => ⟨hloose,d,List.mem_cons_of_mem _ hd,hq⟩
      · rcases List.mem_cons.mp hd with rfl | hd
        · rw [hskip] at hnot
          cases hnot
        · exact hleads d hd hnot
    | false =>
      obtain ⟨r,w₁,hlink,hlinked⟩ := link_plain limit (path ++ [.name c]) h c
      obtain ⟨hchanged₁,hiff₁,hleads₁⟩ := hlinked
      have hdir : IsDirAt w₁.files dir := hchanged₁.isDirAt (fun hq => ne_below dir c hq.2) h
      obtain ⟨w₂,hmade,hchanged₂,hiff₂,hleads₂⟩ := ih hdir
      have hto : plain dir ++ [.name c] = plain (dir ++ [c]) := by simp
      refine ⟨w₂,?_,(hchanged₁.mono ?_).trans (hchanged₂.mono ?_),fun q => (hiff₁ q).trans (hiff₂ q),?_⟩
      · rw [hto, hlink]
        exact hmade
      · exact fun q hq => ⟨hq.1,c,List.mem_cons_self,hskip,hq.2⟩
      · exact fun q ⟨hloose,d,hd,hq⟩ => ⟨(hiff₁ q).mpr hloose,d,List.mem_cons_of_mem _ hd,hq⟩
      · intro d hd hnot hloose
        by_cases hlater : d ∈ names
        · exact hleads₂ d hlater hnot ((hiff₁ _).mp hloose)
        · have heq : d = c := (List.mem_cons.mp hd).resolve_right hlater
          subst heq
          obtain ⟨target,hnode,hsame⟩ := hleads₁ hloose
          refine ⟨target,?_,hsame⟩
          rw [hchanged₂.node, hnode]
          rintro ⟨-,e,he,-,hq⟩
          exact hlater (by rw [List.singleton_inj.mp (List.append_cancel_left hq)]; exact he)

theorem there_of_not_loose {t : Tree} (h : IsDirAt t dir) (hnot : ¬ Loose t (dir ++ [c])) :
    there t limit (plain dir ++ [.name c]) = true := by
  have hwalk : walk t dir [.name c] = .ends (dir ++ [c]) := by
    rw [walk, if_pos h]
    cases hnode : t.node (dir ++ [c]) with
    | none => exact absurd (loose_of_none hnode) hnot
    | some v =>
      cases v with
      | dir => rfl
      | file data => rfl
      | link absolute target =>
        refine absurd (fun v hv => ⟨absolute,target,?_⟩) hnot
        exact Option.some.inj (hv.symm.trans hnode)
  rw [there, follow_append, follow_plain h]
  dsimp only [Except.bind]
  rw [follow_of_ends hwalk]

theorem removeDangling_plain (limit : ℕ) (h : IsDirAt w.files dir) {names : List Name} (hnodup : names.Nodup)
    (hthere : ∀ c ∈ names, w.files.node (dir ++ [c]) ≠ none) : ∃ w',
    removeDangling limit (plain dir) names w = (.ok (),w') ∧
      ChangedAt (fun q => Loose w.files q ∧ ∃ c ∈ names, q = dir ++ [c]) w w' ∧
      ∀ q, Loose w.files q ↔ Loose w'.files q := by
  induction names generalizing w with
  | nil => exact ⟨w,rfl,.refl _ w,fun _ => Iff.rfl⟩
  | cons c names ih =>
    obtain ⟨hc,hnodup⟩ := List.nodup_cons.mp hnodup
    have hlater : ∀ q, (Loose w.files q ∧ ∃ d ∈ names, q = dir ++ [d]) →
        Loose w.files q ∧ ∃ d ∈ c::names, q = dir ++ [d] :=
      fun q ⟨hloose,d,hd,hq⟩ => ⟨hloose,d,List.mem_cons_of_mem _ hd,hq⟩
    rw [removeDangling]
    split
    · obtain ⟨w',hmade,hchanged,hiff⟩ := ih h hnodup fun d hd => hthere d (List.mem_cons_of_mem _ hd)
      exact ⟨w',hmade,hchanged.mono hlater,hiff⟩
    · next hgone =>
      have hloose : Loose w.files (dir ++ [c]) := by
        by_contra hnot
        exact hgone (there_of_not_loose h hnot)
      obtain ⟨v,hv⟩ := Option.ne_none_iff_exists'.mp (hthere c List.mem_cons_self)
      obtain ⟨absolute,target,rfl⟩ := hloose v hv
      obtain ⟨w₁,hremoved,hchanged₁,hnone⟩ := removeFile_plain limit h hv
      have hiff₁ : ∀ q, Loose w.files q ↔ Loose w₁.files q := by
        intro q
        by_cases hq : q = dir ++ [c]
        · rw [hq]
          exact iff_of_true hloose (loose_of_none hnone)
        · exact loose_congr (hchanged₁.node hq)
      obtain ⟨w₂,hmade,hchanged₂,hiff₂⟩ := ih (hchanged₁.isDirAt (ne_below dir c) h) hnodup (by
        intro d hd
        rw [hchanged₁.node fun heq => hc (by rw [← List.singleton_inj.mp (List.append_cancel_left heq)]; exact hd)]
        exact hthere d (List.mem_cons_of_mem _ hd))
      have hto : plain dir ++ [.name c] = plain (dir ++ [c]) := by simp
      refine ⟨w₂,?_,(hchanged₁.mono ?_).trans (hchanged₂.mono fun q hq => ?_),fun q => (hiff₁ q).trans (hiff₂ q)⟩
      · rw [hto, hremoved]
        exact hmade
      · rintro q rfl
        exact ⟨hloose,c,List.mem_cons_self,rfl⟩
      · exact hlater q ⟨(hiff₁ q).mpr hq.1,hq.2⟩

end Linking

section Prepared

variable {limit : ℕ} {layout : Layout} {w : Disk}

/-- The directory of the links is filled with nothing but links, one for each repository. -/
theorem prepareLinks_spec (limit : ℕ)
    (hbuilt : ∀ q, q <+: layout.links → IsDirAt w.files q ∨ w.files.node q = none)
    (hloose : ∀ c, Loose w.files (layout.links ++ [c])) : ∃ w',
    prepareLinks limit layout w = (.ok (),w') ∧
      ChangedAt (fun q => (q <+: layout.links ∧ w.files.node q = none) ∨ ∃ c, q = layout.links ++ [c]) w w' ∧
      IsDirAt w'.files layout.links ∧ (∀ c, Loose w'.files (layout.links ++ [c])) ∧
      ∀ c, w.files.node (layout.external ++ [c]) ≠ none → besideRepos c = false →
        Leads w'.files (layout.links ++ [c]) (plain (layout.external ++ [c])) := by
  obtain ⟨w₁,hmade,hlinks₁,hchanged₁⟩ := createDirAll_plain limit hbuilt
  have hloose₁ : ∀ c, Loose w₁.files (layout.links ++ [c]) := by
    intro c
    refine (loose_congr (hchanged₁.node ?_)).mp (hloose c)
    exact fun hq => absurd hq.1.length_le (by simp)
  obtain ⟨w₂,hremoved,hchanged₂,hiff₂⟩ := removeDangling_plain limit hlinks₁
    (nodup_entries _ _) fun c hc =>
      (mem_entries w₁.files).mp hc
  have hlinks₂ : IsDirAt w₂.files layout.links := by
    refine hchanged₂.isDirAt ?_ hlinks₁
    rintro ⟨-,c,-,hq⟩
    exact ne_below _ _ hq
  have hloose₂ : ∀ c, Loose w₂.files (layout.links ++ [c]) := fun c => (hiff₂ _).mp (hloose₁ c)
  have hchanged : ChangedAt (fun q => (q <+: layout.links ∧ w.files.node q = none) ∨
      ∃ c, q = layout.links ++ [c]) w w₂ :=
    (hchanged₁.mono fun q hq => .inl hq).trans (hchanged₂.mono fun q ⟨_,c,_,hq⟩ => .inr ⟨c,hq⟩)
  have hrepo : ∀ c, w.files.node (layout.external ++ [c]) ≠ none →
      readDir w₂.files limit (plain layout.external) = .ok (entries w₂.files layout.external) ∧
        c ∈ entries w₂.files layout.external := by
    intro c hc
    have hnode : w₂.files.node (layout.external ++ [c]) = w.files.node (layout.external ++ [c]) := by
      refine hchanged.node ?_
      rintro (⟨-,hnone⟩ | ⟨d,hq⟩)
      · exact hc hnone
      · have hlength := congrArg List.length hq
        simp [Layout.external, Layout.links, Layout.execroot] at hlength
    have hsome : w₂.files.node (layout.external ++ [c]) ≠ none := by rwa [hnode]
    exact ⟨readDir_plain (w₂.files.closed _ _ hsome),(mem_entries _).mpr hsome⟩
  rw [prepareLinks, hmade]
  dsimp only
  rw [readDir_plain hlinks₁]
  dsimp only
  rw [hremoved]
  dsimp only
  rw [linkRepos]
  cases hread : readDir w₂.files limit (plain layout.external) with
  | error e =>
    refine ⟨w₂,rfl,hchanged,hlinks₂,hloose₂,fun c hc _ => ?_⟩
    have hok := (hrepo c hc).1
    rw [hread] at hok
    cases hok
  | ok repos =>
    obtain ⟨w₃,hlinked,hchanged₃,hiff₃,hleads⟩ := linkAll_plain limit (plain layout.external) besideRepos
      hlinks₂ repos
    refine ⟨w₃,hlinked,hchanged.trans (hchanged₃.mono ?_),?_,fun c => (hiff₃ _).mp (hloose₂ c),?_⟩
    · exact fun q ⟨_,c,_,_,hq⟩ => .inr ⟨c,hq⟩
    · refine hchanged₃.isDirAt ?_ hlinks₂
      rintro ⟨-,c,-,-,hq⟩
      exact ne_below _ _ hq
    · intro c hc hnot
      obtain ⟨hok,hmem⟩ := hrepo c hc
      have hrepos : repos = entries w₂.files layout.external := by
        rw [hread] at hok
        exact Except.ok.inj hok
      have hpath : plain (layout.external ++ [c]) = plain layout.external ++ [.name c] := by simp
      rw [hpath]
      exact hleads c (hrepos ▸ hmem) hnot (hloose₂ c)

/-- What bringing the execroot up to date leaves behind. -/
structure Laid (layout : Layout) (t : Tree) : Prop where
  base : IsDirAt t layout.outputBase
  built : ∀ q, q <+: layout.bazelOut → IsDirAt t q ∨ t.node q = none
  links : IsDirAt t layout.links ∨ t.node layout.links = none
  loose : ∀ c, Loose t (layout.links ++ [c])

/-- The workspace is a directory, and it is not in the output base. -/
structure Apart (limit : ℕ) (layout : Layout) (t : Tree) (place : List Name) : Prop where
  leads : ∃ n, follow t limit [] layout.workspace = .ok (place,n)
  dir : IsDirAt t place
  outside : ¬ layout.outputBase <+: place

/-- The directory of the links is there, or the workspace has nothing of its name. -/
def Clear (layout : Layout) (t : Tree) (place : List Name) : Prop :=
  IsDirAt t layout.links ∨ t.node (place ++ [.text "external".toList]) = none

theorem base_of_prefix {q : List Name} (h : q <+: layout.bazelOut ∨ q <+: layout.links)
    (hq : ¬ q <+: layout.outputBase) : layout.outputBase <+: q := by
  have hbelow : ∀ a b c : Name, q <+: layout.outputBase ++ [a] ++ [b] ++ [c] → layout.outputBase <+: q := by
    intro a b c hq'
    rw [List.prefix_concat_iff, List.prefix_concat_iff, List.prefix_concat_iff] at hq'
    rcases hq' with rfl | rfl | rfl | hq'
    · exact ⟨[a] ++ [b] ++ [c],by simp⟩
    · exact ⟨[a] ++ [b],by simp⟩
    · exact List.prefix_append _ _
    · exact absurd hq' hq
  exact h.elim (hbelow _ _ _) (hbelow _ _ _)

/-- One time more, everything is written to the output base, and each repository has its link. -/
theorem prepare_laid (hlaid : Laid layout w.files) {place : List Name} (hapart : Apart limit layout w.files place)
    (hclear : Clear layout w.files place) : ∃ w', prepare limit layout w = (.ok (),w') ∧
    ChangedAt (layout.outputBase <+: ·) w w' ∧ Laid layout w'.files ∧
      ∀ c, w.files.node (layout.external ++ [c]) ≠ none → besideRepos c = false →
        Leads w'.files (layout.links ++ [c]) (plain (layout.external ++ [c])) := by
  obtain ⟨w₁,hmade,hout₁,hchanged₁⟩ := createDirAll_plain limit hlaid.built
  have hkept : Kept w.files w₁.files := by
    intro q v hv
    rw [hchanged₁.node, hv]
    rintro ⟨-,hnone⟩
    rw [hv] at hnone
    cases hnone
  obtain ⟨n,hleads⟩ := hapart.leads
  have hread : readDir w₁.files limit layout.workspace = .ok (entries w₁.files place) := by
    rw [readDir, follow_kept hkept hleads]
    exact if_pos (hkept _ _ hapart.dir)
  have hsplit : layout.bazelOut = layout.execroot ++ [.text "bazel-out".toList] := rfl
  have hsplit' : layout.links = layout.execroot ++ [.text "external".toList] := rfl
  have hroot₁ : IsDirAt w₁.files layout.execroot :=
    w₁.files.isDirAt_of_prefix hout₁ (hsplit ▸ List.prefix_append _ _)
  obtain ⟨w₂,hlinked,hchanged₂,hiff₂,-⟩ := linkAll_plain limit layout.workspace ofWorkspace
    hroot₁ (entries w₁.files place)
  have hnotout : ¬ layout.links <+: layout.bazelOut := by
    rw [hsplit, hsplit', List.prefix_concat_iff]
    rintro (heq | hbelow)
    · exact absurd (List.append_cancel_left heq) (by decide)
    · exact absurd hbelow.length_le (by simp)
  have hlinks₁ : w₁.files.node layout.links = w.files.node layout.links := hchanged₁.node fun hq => hnotout hq.1
  -- What was a directory is one still, and what the workspace has nothing for is not made.
  have hlinks₂ : w₂.files.node layout.links = w.files.node layout.links := by
    rw [hchanged₂.node, hlinks₁]
    rintro ⟨hloose,c,hc,-,heq⟩
    rcases hclear with hdir | hnone
    · exact not_loose_of_dir (hlinks₁.trans hdir) hloose
    · obtain rfl := List.singleton_inj.mp (List.append_cancel_left (hsplit' ▸ heq))
      refine (mem_entries _).mp hc ?_
      rw [hchanged₁.node, hnone]
      rintro ⟨hbelow,-⟩
      by_cases hbase : place ++ [Name.text "external".toList] <+: layout.outputBase
      · have hdir := w.files.isDirAt_of_prefix hlaid.base hbase
        rw [IsDirAt, hnone] at hdir
        cases hdir
      · have hin := base_of_prefix (.inl hbelow) hbase
        rcases List.prefix_concat_iff.mp hin with heq' | hin
        · exact hbase (heq' ▸ List.prefix_rfl)
        · exact hapart.outside hin
  have hroot₂ : ∀ q, q <+: layout.execroot → IsDirAt w₂.files q := by
    intro q hq
    refine hchanged₂.isDirAt ?_ (w₁.files.isDirAt_of_prefix hroot₁ hq)
    rintro ⟨-,c,-,-,rfl⟩
    exact absurd hq.length_le (by simp)
  have hbuilt₂ : ∀ q, q <+: layout.links → IsDirAt w₂.files q ∨ w₂.files.node q = none := by
    intro q hq
    rcases List.prefix_concat_iff.mp (hsplit' ▸ hq) with rfl | hq
    · rw [← hsplit', IsDirAt, hlinks₂]
      exact hlaid.links
    · exact .inl (hroot₂ q hq)
  have hloose₂ : ∀ c, Loose w₂.files (layout.links ++ [c]) := by
    intro c
    refine (hiff₂ _).mp ((loose_congr (hchanged₁.node ?_)).mp (hlaid.loose c))
    rintro ⟨hq,-⟩
    exact hnotout ((List.prefix_append _ _).trans hq)
  obtain ⟨w₃,hprepared,hchanged₃,hlinks₃,hloose₃,hrepos⟩ := prepareLinks_spec limit hbuilt₂ hloose₂
  have hbelow : ∀ q, layout.outputBase <+: layout.execroot ++ q := by
    intro q
    rw [Layout.execroot, List.append_assoc, List.append_assoc]
    exact List.prefix_append _ _
  have hmissing : ∀ q, ¬ IsDirAt w.files q → ¬ q <+: layout.outputBase :=
    fun q hnot hq => hnot (w.files.isDirAt_of_prefix hlaid.base hq)
  have hstays : ∀ q, IsDirAt w₂.files q → (∀ c, q ≠ layout.links ++ [c]) → IsDirAt w₃.files q := by
    intro q hdir hne
    refine hchanged₃.isDirAt ?_ hdir
    rintro (⟨-,hnone⟩ | ⟨c,hq⟩)
    · exact absurd (hdir.symm.trans hnone) (by simp)
    · exact hne c hq
  have hbase : layout.outputBase <+: layout.execroot := by
    have hin := hbelow []
    rwa [List.append_nil] at hin
  refine ⟨w₃,?_,(hchanged₁.mono ?_).trans ((hchanged₂.mono ?_).trans (hchanged₃.mono ?_)),
    ⟨?_,?_,.inl hlinks₃,hloose₃⟩,?_⟩
  · rw [prepare, hmade]
    dsimp only
    rw [hread]
    dsimp only
    rw [hlinked]
    exact hprepared
  · rintro q ⟨hq,hnone⟩
    exact base_of_prefix (.inl hq) (hmissing q fun hdir => absurd (hdir.symm.trans hnone) (by simp))
  · rintro q ⟨-,c,-,-,rfl⟩
    exact hbelow _
  · rintro q (⟨hq,hnone⟩ | ⟨c,rfl⟩)
    · refine base_of_prefix (.inr hq) fun hin => ?_
      exact absurd ((hroot₂ q (hin.trans hbase)).symm.trans hnone) (by simp)
    · rw [hsplit', List.append_assoc]
      exact hbelow _
  · refine hstays _ (hroot₂ _ hbase) fun c heq => ?_
    have hlength := congrArg List.length heq
    simp [Layout.links, Layout.execroot] at hlength
  · intro q hq
    refine .inl (hstays q ?_ fun c heq => ?_)
    · rcases List.prefix_concat_iff.mp (hsplit ▸ hq) with rfl | hq
      · exact hchanged₂.isDirAt (fun hin => not_loose_of_dir hout₁ hin.1) hout₁
      · exact hroot₂ q hq
    · have hlength := hq.length_le
      rw [heq] at hlength
      simp [Layout.links, Layout.bazelOut] at hlength
  · intro c hc hnot
    refine hrepos c ?_ hnot
    rw [hchanged₂.node, hchanged₁.node]
    · exact hc
    · exact fun hq => hc hq.2
    · rintro ⟨-,d,-,-,heq⟩
      have hlength := congrArg List.length heq
      simp [Layout.external, Layout.execroot] at hlength

end Prepared

section Runs

variable {limit : ℕ} {layout : Layout}

/-- What is below `execroot`, but not what a build makes in `bazel-out`. -/
def Own (layout : Layout) (q : List Name) : Prop :=
  layout.outputBase ++ [.text "execroot".toList] <+: q ∧ ¬ (layout.bazelOut <+: q ∧ q ≠ layout.bazelOut)

/-- The disk as earlier runs have left it, with anything changed elsewhere between them. No run
found the links missing and an entry of that name in the workspace. -/
inductive Left (limit : ℕ) (layout : Layout) : Tree → Prop where
  | fresh {t : Tree} (base : IsDirAt t layout.outputBase)
      (nothing : t.node (layout.outputBase ++ [.text "execroot".toList]) = none) : Left limit layout t
  | elsewhere {t t' : Tree} (left : Left limit layout t) (base : IsDirAt t' layout.outputBase)
      (same : ∀ q, Own layout q → t'.node q = t.node q) : Left limit layout t'
  | prepared {w : Disk} {place : List Name} (left : Left limit layout w.files)
      (apart : Apart limit layout w.files place) (clear : Clear layout w.files place) :
      Left limit layout (prepare limit layout w).2.files

theorem own_of_prefix {q : List Name} (h : q <+: layout.bazelOut) :
    q <+: layout.outputBase ∨ Own layout q := by
  have hnot : ¬ (layout.bazelOut <+: q ∧ q ≠ layout.bazelOut) := fun hq => hq.2 (h.eq_of_length_le hq.1.length_le)
  rcases List.prefix_concat_iff.mp h with rfl | hroot
  · exact .inr ⟨⟨[.text "_main".toList] ++ [.text "bazel-out".toList],by simp [Layout.execroot]⟩,hnot⟩
  · rcases List.prefix_concat_iff.mp hroot with rfl | hroot
    · exact .inr ⟨List.prefix_append _ _,hnot⟩
    · rcases List.prefix_concat_iff.mp hroot with rfl | hbase
      · exact .inr ⟨List.prefix_rfl,hnot⟩
      · exact .inl hbase

theorem own_links (rest : List Name) : Own layout (layout.links ++ rest) := by
  refine ⟨⟨[.text "_main".toList] ++ [.text "external".toList] ++ rest,by simp [Layout.links, Layout.execroot]⟩,?_⟩
  rintro ⟨⟨more,hmore⟩,-⟩
  simp [Layout.links, Layout.bazelOut] at hmore

theorem left_laid {t : Tree} (h : Left limit layout t) : Laid layout t := by
  induction h with
  | @fresh t base nothing =>
    have hnone : ∀ q, t.node (layout.outputBase ++ [.text "execroot".toList] ++ q) = none := by
      intro q
      cases q with
      | nil => rwa [List.append_nil]
      | cons c q =>
        by_contra hsome
        exact absurd ((t.above hsome (List.cons_ne_nil _ _)).symm.trans nothing) (by simp)
    have hlinks : ∀ q, t.node (layout.links ++ q) = none := by
      intro q
      have hsplit : layout.links ++ q = layout.outputBase ++ [.text "execroot".toList] ++
          ([.text "_main".toList] ++ [.text "external".toList] ++ q) := by simp [Layout.links, Layout.execroot]
      rw [hsplit]
      exact hnone _
    refine ⟨base,fun q hq => ?_,.inr ?_,fun c => loose_of_none (hlinks [c])⟩
    · rcases own_of_prefix hq with hbase | ⟨⟨rest,rfl⟩,-⟩
      · exact .inl (t.isDirAt_of_prefix base hbase)
      · exact .inr (hnone rest)
    · have hself := hlinks []
      rwa [List.append_nil] at hself
  | @elsewhere t t' _ base same ih =>
    refine ⟨base,fun q hq => ?_,?_,fun c => (loose_congr (same _ (own_links [c]))).mp (ih.loose c)⟩
    · rcases own_of_prefix hq with hbase | hown
      · exact .inl (t'.isDirAt_of_prefix base hbase)
      · rw [IsDirAt, same q hown]
        exact ih.built q hq
    · have hself := same _ (own_links [])
      rw [List.append_nil] at hself
      rw [IsDirAt, hself]
      exact ih.links
  | prepared left apart clear ih =>
    obtain ⟨w',hprepared,-,hlaid,-⟩ := prepare_laid ih apart clear
    rw [hprepared]
    exact hlaid

/-- Whatever earlier runs have left and the workspace has become, everything that is made,
replaced or removed is in the output base, and each repository is linked. -/
theorem prepare_inside {w : Disk} {place : List Name} (hleft : Left limit layout w.files)
    (hapart : Apart limit layout w.files place) (hclear : Clear layout w.files place) : ∃ w',
    prepare limit layout w = (.ok (),w') ∧ ChangedAt (layout.outputBase <+: ·) w w' ∧
      ∀ c, w.files.node (layout.external ++ [c]) ≠ none → besideRepos c = false →
        Leads w'.files (layout.links ++ [c]) (plain (layout.external ++ [c])) := by
  obtain ⟨w',hprepared,hchanged,-,hrepos⟩ := prepare_laid (left_laid hleft) hapart hclear
  exact ⟨w',hprepared,hchanged,hrepos⟩

def named (text : String) : Name := .text text.toList

def demo : Layout := ⟨[.name (named "ws")],[named "ob"]⟩

/-- A workspace with one directory, a link in it that leads nowhere, and a repository. -/
def withDirectory (entry : String) : Disk :=
  let w := (createDirAll 40 (plain [named "ob",named "external",named "dep"]) ⟨.bare,[]⟩).2
  let w := (createDirAll 40 (plain [named "ws",named entry]) w).2
  (symlink 40 true [.name (named "gone")] (plain [named "ws",named entry,named "l"]) w).2

theorem prepare_inside_lib : ∃ w', prepare 40 demo (withDirectory "lib") = (.ok (),w') ∧
    ChangedAt (demo.outputBase <+: ·) (withDirectory "lib") w' ∧
      ∀ c, (withDirectory "lib").files.node (demo.external ++ [c]) ≠ none → besideRepos c = false →
        Leads w'.files (demo.links ++ [c]) (plain (demo.external ++ [c])) := by
  have hapart : Apart 40 demo (withDirectory "lib").files [named "ws"] := ⟨⟨40,by decide⟩,by decide,by decide⟩
  exact prepare_inside (.fresh (by decide) (by decide)) hapart (.inr (by decide))

/-- The link in the workspace is removed. -/
theorem external_emptied : Left 40 demo (withDirectory "external").files ∧
    Apart 40 demo (withDirectory "external").files [named "ws"] ∧
    (withDirectory "external").files.node [named "ws",named "external",named "l"] ≠ none ∧
    (prepare 40 demo (withDirectory "external")).2.files.node [named "ws",named "external",named "l"] = none ∧
    ∃ c ∈ (prepare 40 demo (withDirectory "external")).2.changes, ¬ demo.outputBase <+: c.place := by
  refine ⟨.fresh (by decide) (by decide),⟨⟨40,by decide⟩,by decide,by decide⟩,by decide,by decide,by decide⟩

end Runs

end BuildFiji.Execroot
