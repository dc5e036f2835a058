import BuildFiji.Bzlmod.ExtensionDigest
import BuildFiji.Repo.BzlDigests
import BuildFiji.Repo.LockedExtension
import BuildFiji.Repo.MarkerText

/-!
# The input that a locked extension was made from

An entry is taken where the digests of the files and of what the modules say are what they
were, and every repo name that was noted leads where it led. What the implementation is run
over is put together from the same uses another way: the modules by their names, and the
tags of each use after those of the one before.
-/

set_option autoImplicit false
set_option linter.all false

namespace BuildFiji.Replay

open BuildFiji.Bzlmod hiding Bytes

open BuildFiji.Grouped

open BuildFiji.Graph (Label validateRepoName)

open BuildFiji.Recorded (Text Bytes rsplitOnce)

structure TagUse where
  tagClass : String
  attrs : List (String × AttrValue)
  devDependency : Bool
  location : String

structure ModuleUse where
  name : String
  version : String
  isRoot : Bool
  repo : String
  tags : List TagUse

structure ExtensionInput where
  modules : List ModuleUse
  rootHasNonDevDependency : Bool
  facts : List (String × Json)

section Input
variable (d : Declared)

def tagUse (tag : Tag) : TagUse := ⟨tag.tagClass,tag.attrs,tag.devDependency,tag.location⟩

/-- The uses of a module are found by its name. -/
def moduleUses (e : ExtensionInstance) : List (Gathered Use) :=
  collect (fun u => u.module.name) (d.uses e)

def tagsOf (g : Gathered Use) : List Tag := g.all.flatMap fun u => u.said.tags

def moduleUse (g : Gathered Use) : ModuleUse where
  name := g.first.module.name
  version := g.first.module.version.normalized
  isRoot := g.first.key.isRoot
  repo := d.res.canonicalNameOf g.first.key
  tags := (tagsOf g).map tagUse

def rootHasNonDev (e : ExtensionInstance) : Bool :=
  (d.uses e).any fun u => u.key.isRoot && !u.usage.devDependency

def extensionInput (e : ExtensionInstance) (facts : List (String × Json)) : ExtensionInput :=
  ⟨(moduleUses d e).map (moduleUse d),rootHasNonDev d e,facts⟩

end Input

/-- `bzl_label`. -/
def bzlLabel (repo : String) (rest : Text) : Label :=
  let rest := (rest.dropPrefix? "//".toList).getD rest
  let (package,name) := (Text.splitOnce [':'] rest).getD ([],rest)
  ⟨repo,.ofList package,.ofList name⟩

def fileOf (e : ExtensionInstance) : Label :=
  bzlLabel e.bzlRepo ((rsplitOnce '%' e.id.toList).getD (e.id.toList,[])).1

/-- An extension of a module graph with its files, in a session. -/
structure ExtensionRun where
  declared : Declared
  extension : ExtensionInstance
  used : extension ∈ declared.res.extensions
  loaded : Loaded
  fileLoaded : fileOf extension ∈ loaded.files.map BzlFile.label
  facts : List (String × Json)
  about : Extension
  session : Session
  canonical : ∀ repo apparent, session.world.mapping repo apparent ≠ some "\\0".toList

namespace ExtensionRun

def file (r : ExtensionRun) : Label := fileOf r.extension

def mapping (r : ExtensionRun) : Text → Text → Option Text := r.session.world.mapping

def input (r : ExtensionRun) : ExtensionInput := extensionInput r.declared r.extension r.facts

variable (sha256 : Bytes → Digest)

def digestText (bytes : Bytes) : String := base64 (sha256 bytes).toList

def toExtension (r : ExtensionRun) : Extension :=
  { r.about with
    lockId := r.extension.lockId
    usagesDigest := digestText sha256 (r.declared.usagesBytes r.extension) }

def toSession (r : ExtensionRun) : Session :=
  { r.session with
    bzlDigest := (r.loaded.transitiveDigest sha256 r.file).map fun digest => base64 digest.toList
    lookups := r.loaded.lookupsUnder r.mapping r.file }

/-- All that is hashed for the extension. -/
def hashed (r : ExtensionRun) : List Bytes :=
  r.declared.usagesBytes r.extension::r.loaded.hashed sha256

end ExtensionRun

/-- What an implementation sees of a tag, but for where it is. -/
def TagUse.seen (tag : TagUse) : String × List (String × AttrValue) × Bool :=
  (tag.tagClass,tag.attrs,tag.devDependency)

def ModuleUse.seen (m : ModuleUse) :
    (String × String × Bool) × String × List (String × List (String × AttrValue) × Bool) :=
  ((m.name,m.version,m.isRoot),m.repo,m.tags.map TagUse.seen)

def ExtensionInput.seen (input : ExtensionInput) :=
  (input.modules.map ModuleUse.seen,input.rootHasNonDevDependency)

/-- What the first run was made from is what the second would be made from. -/
structure SameInput (r r' : ExtensionRun) : Prop where
  texts : ∀ f f', Corresponds r.loaded r'.loaded r.file r'.file f f' →
    f.text = f'.text ∧ f.loads.length = f'.loads.length
  lookups : ∀ f, Under r.loaded r.file f → ∀ name ∈ f.noted ++ f.quiet,
    r'.mapping f.label.repo.toList name = r.mapping f.label.repo.toList name
  input : r'.input.seen = r.input.seen

section Left

/-- The repo that each module entry has. -/
def repos (r : ExtensionRun) : List String :=
  (moduleUses r.declared r.extension).map fun g => r.declared.res.canonicalNameOf g.first.key

/-- The tags of each module entry, use after use. -/
def toldTags (r : ExtensionRun) : List (List (String × List (String × AttrValue) × Bool)) :=
  (moduleUses r.declared r.extension).map fun g => (tagsOf g).map fun t => (tagUse t).seen

/-- The tags of each module entry in the order of the digest. -/
def digestTags (r : ExtensionRun) : List (List (String × List (String × AttrValue) × Bool)) :=
  (collect Prod.fst ((r.declared.byModule r.extension).map fun g =>
    (g.first.module.name,(sortedTags g).map fun t => (tagUse t).seen))).map
      fun g => g.all.flatMap Prod.snd

/-- What the digests and the notes leave open is the same. -/
structure LeftOpen (r r' : ExtensionRun) : Prop where
  quiet : ∀ f, Under r.loaded r.file f → ∀ name ∈ f.quiet,
    r'.mapping f.label.repo.toList name = r.mapping f.label.repo.toList name
  repos : repos r' = repos r
  dev : rootHasNonDev r'.declared r'.extension = rootHasNonDev r.declared r.extension
  tags : toldTags r' = toldTags r

/-- The uses list the tags as the digest does, and the values keep their types in JSON. -/
def Plain (r : ExtensionRun) : Prop :=
  toldTags r = digestTags r ∧
    ∀ u ∈ r.declared.uses r.extension, ∀ tag ∈ u.said.tags, tag.plain = true

end Left

section Taken

variable {sha256 : Bytes → Digest} {r r' : ExtensionRun}
variable {made : ExtensionOutput} {entry : LockedExtension} {previous : List LockedExtension}

theorem lockedHit_some {e : Extension} {session : Session}
    (h : lockedHit e session previous = some entry) :
    ∃ digest, session.bzlDigest = some digest ∧ isCurrent e session digest entry = true := by
  obtain ⟨id,-,h⟩ := Option.bind_eq_some_iff.mp h
  obtain ⟨digest,hdigest,h⟩ := Option.bind_eq_some_iff.mp h
  exact ⟨digest,hdigest,List.find?_some h⟩

theorem mem_once {α : Type*} [BEq α] [LawfulBEq α] (texts : List α) {all : List α} {t : α}
    (h : t ∈ all ∨ t ∈ texts) :
    t ∈ texts.foldl (fun all text => if all.contains text then all else all ++ [text]) all := by
  induction texts generalizing all with
  | nil => exact h.resolve_right List.not_mem_nil
  | cons x texts ih =>
    rw [List.foldl_cons]
    apply ih
    split
    · next hx =>
      rcases h with h | h
      · exact .inl h
      · rcases List.mem_cons.mp h with rfl | h
        · exact .inl (List.contains_iff_mem.mp hx)
        · exact .inr h
    · rw [List.mem_append, List.mem_singleton]
      rcases h with h | h
      · exact .inl (.inl h)
      · rcases List.mem_cons.mp h with rfl | h
        · exact .inl (.inr rfl)
        · exact .inr h

/-- An entry that is taken has the digests that it was made with, and all it noted holds. -/
theorem taken_current {e e' : Extension} {session session' : Session}
    (hmade : lockedEntry e session made = some entry)
    (hhit : lockedHit e' session' previous = some entry) :
    session'.bzlDigest = some (session.bzlDigest.getD "") ∧ e.usagesDigest = e'.usagesDigest ∧
      ∀ row ∈ session.lookups, Recorded.inputIsCurrent session'.layout session'.sha256 session'.world
        ("REPO_MAPPING:" ++ row.1 ++ "," ++ row.2.1 ++ " " ++ row.2.2).toList = true := by
  obtain ⟨digest,hdigest,hcurrent⟩ := lockedHit_some hhit
  unfold lockedEntry at hmade
  split at hmade
  · cases hmade
  obtain ⟨id,-,rfl⟩ := Option.map_eq_some_iff.mp hmade
  simp only [isCurrent, List.cons_append, Bool.and_eq_true] at hcurrent
  obtain ⟨⟨hbzl,husages⟩,hinputs⟩ := hcurrent
  refine ⟨hdigest.trans (congrArg some ?_),?_,fun row hrow => ?_⟩
  · exact (beq_iff_eq.mp (show (session.bzlDigest.getD "" == digest) = true from hbzl)).symm
  · exact beq_iff_eq.mp (show (e.usagesDigest == e'.usagesDigest) = true from husages)
  · have hall : ((recordedTexts session made).map Json.string).all (fun input => (stringOf input).any
        fun t => Recorded.inputIsCurrent session'.layout session'.sha256 session'.world t.toList) = true :=
      hinputs
    rw [List.all_eq_true] at hall
    refine hall (.string _) (List.mem_map_of_mem (mem_once _ (.inr (List.mem_append_left _ ?_))))
    exact List.mem_map.mpr ⟨row,hrow,rfl⟩

/-- An entry is taken where nothing has changed. -/
theorem taken_again {e e' : Extension} {session session' : Session} {made : ExtensionOutput}
    {entry : LockedExtension} {digest : String} (hmade : lockedEntry e session made = some entry)
    (hid : e'.lockId = e.lockId) (husages : e'.usagesDigest = e.usagesDigest)
    (hdigest : session.bzlDigest = some digest) (hdigest' : session'.bzlDigest = some digest)
    (hhere : isHere session' (factorsOf session made) = true)
    (hinputs : ∀ t ∈ recordedTexts session made, Recorded.inputIsCurrent session'.layout
      session'.sha256 session'.world t.toList = true) :
    lockedHit e' session' [entry] = some entry := by
  unfold lockedEntry at hmade
  split at hmade
  · cases hmade
  obtain ⟨id,hlock,rfl⟩ := Option.map_eq_some_iff.mp hmade
  have hall : ((recordedTexts session made).map Json.string).all (fun input => (stringOf input).any
      fun t => Recorded.inputIsCurrent session'.layout session'.sha256 session'.world t.toList) = true := by
    rw [List.all_map, List.all_eq_true]
    exact hinputs
  have hcurrent : ∀ rest, isCurrent e' session' digest ⟨id,factorsOf session made,.object
      (("bzlTransitiveDigest",.string (session.bzlDigest.getD ""))::
        ("usagesDigest",.string e.usagesDigest)::
        ("recordedInputs",.array ((recordedTexts session made).map .string))::rest)⟩ = true := by
    intro rest
    rw [hdigest, ← husages]
    refine Bool.and_eq_true_iff.mpr ⟨Bool.and_eq_true_iff.mpr ⟨beq_self_eq_true digest,
      beq_self_eq_true e'.usagesDigest⟩,hall⟩
  rw [lockedHit, hid, hlock, hdigest']
  simp only [Option.bind_eq_bind, Option.bind_some, List.filter_cons, beq_self_eq_true, hhere,
    Bool.and_self, if_true, List.filter_nil, List.find?_cons]
  rw [List.cons_append, List.cons_append, List.cons_append, hcurrent]

theorem validName_not_mem {name : Text} (h : validateRepoName name = .ok ()) {c : Char}
    (hc : c.isAlphanum = false) (hno : c ∉ ['_','-','.','+']) : c ∉ name := by
  intro hmem
  unfold validateRepoName at h
  split at h
  · next hall =>
    have hchar := List.all_eq_true.mp hall c hmem
    simp [hc, hno] at hchar
  · cases h

/-- A name that was noted leads where it led. -/
theorem noted_same {repo apparent : Text} {layout : Recorded.Layout} {hash : Bytes → Bytes}
    {world : Recorded.World} {mapping : Text → Text → Option Text}
    (hrepo : validateRepoName repo = .ok ()) (happarent : validateRepoName apparent = .ok ())
    (hnew : world.mapping repo apparent ≠ some "\\0".toList)
    (hold : mapping repo apparent ≠ some "\\0".toList)
    (h : Recorded.inputIsCurrent layout hash world ("REPO_MAPPING:" ++
      (lookupRow mapping repo apparent).1 ++ "," ++ (lookupRow mapping repo apparent).2.1 ++ " " ++
        (lookupRow mapping repo apparent).2.2).toList = true) :
    world.mapping repo apparent = mapping repo apparent := by
  have htext : ("REPO_MAPPING:" ++ (lookupRow mapping repo apparent).1 ++ "," ++
      (lookupRow mapping repo apparent).2.1 ++ " " ++ (lookupRow mapping repo apparent).2.2).toList =
      "REPO_MAPPING:".toList ++ ((repo ++ ','::apparent) ++
        ' '::((mapping repo apparent).getD "\\0".toList)) := by
    simp [lookupRow]
  have hspace : ' ' ∉ repo ++ ','::apparent := by
    rw [List.mem_append, List.mem_cons, not_or, not_or]
    exact ⟨validName_not_mem hrepo (by decide) (by decide),by decide,
      validName_not_mem happarent (by decide) (by decide)⟩
  have hcomma : ',' ∉ repo := validName_not_mem hrepo (by decide) (by decide)
  rw [htext, Recorded.inputIsCurrent, Recorded.dropPrefix?_append] at h
  simp only [Recorded.mappingIsCurrent, Text.splitOnce_char _ hspace,
    Text.splitOnce_char _ hcomma, beq_iff_eq] at h
  cases hn : world.mapping repo apparent with
  | none =>
    cases hm : mapping repo apparent with
    | none => rfl
    | some c =>
      rw [hn, hm] at h
      exact absurd (hm.trans (congrArg some h.symm)) hold
  | some c =>
    cases hm : mapping repo apparent with
    | none =>
      rw [hn, hm] at h
      exact absurd (hn.trans (congrArg some h)) hnew
    | some c' =>
      rw [hn, hm] at h
      exact congrArg some h

/-- No two of the texts have one digest. -/
def ToldApart (sha256 : Bytes → Digest) (texts : List Bytes) : Prop :=
  ∀ x ∈ texts, ∀ y ∈ texts, ExtensionRun.digestText sha256 x = ExtensionRun.digestText sha256 y → x = y

theorem file_digest (sha256 : Bytes → Digest) (r : ExtensionRun) : ∃ f ∈ r.loaded.files,
    r.loaded.transitiveDigest sha256 r.file =
      some (sha256 (fileBytes sha256 (r.loaded.transitiveDigest sha256) f)) := by
  obtain ⟨f,hf,hlabel⟩ := List.mem_map.mp r.fileLoaded
  exact ⟨f,hf,(congrArg (r.loaded.transitiveDigest sha256) hlabel).symm.trans (Loaded.digest_of hf).1⟩

theorem digests_same
    (hapart : ToldApart sha256 (r.hashed sha256 ++ r'.hashed sha256))
    (hmade : lockedEntry (r.toExtension sha256) (r.toSession sha256) made = some entry)
    (hhit : lockedHit (r'.toExtension sha256) (r'.toSession sha256) previous = some entry) :
    r.loaded.transitiveDigest sha256 r.file = r'.loaded.transitiveDigest sha256 r'.file := by
  obtain ⟨hbzl,-,-⟩ := taken_current hmade hhit
  obtain ⟨f,hf,hd⟩ := file_digest sha256 r
  obtain ⟨f',hf',hd'⟩ := file_digest sha256 r'
  rw [ExtensionRun.toSession, ExtensionRun.toSession, hd, hd', Option.map_some, Option.map_some,
    Option.getD_some, Option.some.injEq] at hbzl
  have hmem : ∀ (x : ExtensionRun) (g : BzlFile), g ∈ x.loaded.files →
      fileBytes sha256 (x.loaded.transitiveDigest sha256) g ∈ x.hashed sha256 := fun x g hg =>
    List.mem_cons_of_mem _ (List.mem_flatMap.mpr ⟨g,hg,by simp⟩)
  rw [hd, hd', hapart _ (List.mem_append_left _ (hmem r f hf)) _
    (List.mem_append_right _ (hmem r' f' hf')) hbzl.symm]

theorem usages_same (htext : ∀ x ∈ [r,r'], ∀ y ∈ [r,r'], (x.declared.usagesJson x.extension).compact =
      (y.declared.usagesJson y.extension).compact →
      x.declared.usagesJson x.extension = y.declared.usagesJson y.extension)
    (hapart : ToldApart sha256 (r.hashed sha256 ++ r'.hashed sha256))
    (hmade : lockedEntry (r.toExtension sha256) (r.toSession sha256) made = some entry)
    (hhit : lockedHit (r'.toExtension sha256) (r'.toSession sha256) previous = some entry) :
    r.declared.usagesJson r.extension = r'.declared.usagesJson r'.extension := by
  obtain ⟨-,husages,-⟩ := taken_current hmade hhit
  have hbytes := hapart _ (List.mem_append_left _ List.mem_cons_self) _
    (List.mem_append_right _ List.mem_cons_self) husages
  exact htext r (by simp) r' (by simp) (String.ofList_injective (Utf16.encode_injective hbytes))

theorem noted_under (hmade : lockedEntry (r.toExtension sha256) (r.toSession sha256) made = some entry)
    (hhit : lockedHit (r'.toExtension sha256) (r'.toSession sha256) previous = some entry)
    {f : BzlFile} (hf : Under r.loaded r.file f) {name : Text} (hname : name ∈ f.noted) :
    r'.mapping f.label.repo.toList name = r.mapping f.label.repo.toList name := by
  obtain ⟨-,-,hrows⟩ := taken_current hmade hhit
  have hmem : f ∈ r.loaded.files := by
    cases hf with
    | root hf hr => exact hf
    | load hu hg hl => exact hg
  obtain ⟨hrepo,hnames⟩ := r.loaded.named f hmem
  exact noted_same hrepo (hnames name hname) (r'.canonical _ _) (r.canonical _ _)
    (hrows _ (lookup_under hf hname))

end Taken

section Modules

theorem mem_uses_module {d : Declared} {e : ExtensionInstance} {u : Use} (hu : u ∈ d.uses e) :
    d.res.selection.resolved.lookup u.key = some u.module := by
  obtain ⟨x,-,hx⟩ := List.mem_filterMap.mp hu
  obtain ⟨module,hmodule,hx⟩ := Option.bind_eq_some_iff.mp hx
  obtain ⟨usage,-,hx⟩ := Option.bind_eq_some_iff.mp hx
  cases hx
  exact hmodule

/-- The module entries begin with the uses that begin the modules of the digest. -/
theorem moduleUses_first (d : Declared) (e : ExtensionInstance) :
    (moduleUses d e).map Gathered.first =
      firsts (fun u => u.module.name) ((d.byModule e).map Gathered.first) := by
  rw [moduleUses, collect_firsts, Declared.byModule, collect_firsts]
  refine (firsts_firsts fun u hu v hv hkey => ?_).symm
  have hmodule := mem_uses_module hu
  rw [hkey, mem_uses_module hv, Option.some.injEq] at hmodule
  rw [hmodule]

variable {r r' : ExtensionRun}

theorem headers_same
    (h : r.declared.usagesJson r.extension = r'.declared.usagesJson r'.extension) :
    (moduleUses r.declared r.extension).map (fun g => g.first.header) =
      (moduleUses r'.declared r'.extension).map fun g => g.first.header := by
  have hheads : ∀ x : ExtensionRun, (moduleUses x.declared x.extension).map (fun g => g.first.header) =
      firsts (fun t => t.2.1) ((x.declared.byModule x.extension).map fun g => g.first.header) := by
    intro x
    have hmap := congrArg (List.map Use.header) (moduleUses_first x.declared x.extension)
    rw [List.map_map] at hmap
    refine hmap.trans ?_
    have hfirst := firsts_map (fun t : String × String × String => t.2.1) Use.header
      ((x.declared.byModule x.extension).map Gathered.first)
    rw [List.map_map] at hfirst
    exact hfirst.symm
  have htold := usagesJson_told h
  rw [map_pair_iff] at htold
  rw [hheads, hheads, htold.1]

/-- Which modules are told of, but for their repos and tags. -/
theorem infos_same
    (h : r.declared.usagesJson r.extension = r'.declared.usagesJson r'.extension) :
    (moduleUses r.declared r.extension).map (fun g =>
        (g.first.module.name,g.first.module.version.normalized,g.first.key.isRoot)) =
      (moduleUses r'.declared r'.extension).map fun g =>
        (g.first.module.name,g.first.module.version.normalized,g.first.key.isRoot) := by
  refine map_eq_of (fun g _ g' _ hheader => ?_) (headers_same h)
  obtain ⟨hkey,hrest⟩ := Prod.mk.inj hheader
  obtain ⟨hname,hversion⟩ := Prod.mk.inj hrest
  rw [hname, hversion, toString_isRoot hkey]

/-- The input is the modules that the digest tells of, their repos and tags, and one flag. -/
theorem input_seen (r : ExtensionRun) : r.input.seen =
    ((moduleUses r.declared r.extension).map fun g =>
      ((g.first.module.name,g.first.module.version.normalized,g.first.key.isRoot),
        r.declared.res.canonicalNameOf g.first.key,(tagsOf g).map fun t => (tagUse t).seen),
      rootHasNonDev r.declared r.extension) := by
  rw [ExtensionInput.seen, ExtensionRun.input, extensionInput]
  simp only [List.map_map, ModuleUse.seen, moduleUse, Function.comp_def]

theorem input_same_iff
    (h : r.declared.usagesJson r.extension = r'.declared.usagesJson r'.extension) :
    r'.input.seen = r.input.seen ↔ repos r' = repos r ∧ toldTags r' = toldTags r ∧
      rootHasNonDev r'.declared r'.extension = rootHasNonDev r.declared r.extension := by
  rw [input_seen, input_seen, Prod.mk.injEq]
  constructor
  · rintro ⟨hmodules,hdev⟩
    obtain ⟨hrepos,htags⟩ := map_pair_iff.mp (map_pair_iff.mp hmodules).2
    exact ⟨hrepos,htags,hdev⟩
  · rintro ⟨hrepos,htags,hdev⟩
    exact ⟨map_pair_iff.mpr ⟨(infos_same h).symm,map_pair_iff.mpr ⟨hrepos,htags⟩⟩,hdev⟩

theorem tagJson_seen {t t' : Tag} (ht : t.plain = true) (ht' : t'.plain = true)
    (h : tagJson t = tagJson t') : (tagUse t).seen = (tagUse t').seen := by
  simp only [tagJson, Json.object.injEq, List.cons.injEq, Prod.mk.injEq, Json.string.injEq,
    Json.bool.injEq, true_and, and_true] at h
  obtain ⟨hclass,hattrs,hdev⟩ := h
  rw [TagUse.seen, TagUse.seen, tagUse, tagUse, hclass, hdev, attrsJson_inj ht ht' hattrs]

theorem plain_sorted (hplain : Plain r) {g : Gathered Use} (hg : g ∈ r.declared.byModule r.extension)
    {t : Tag} (ht : t ∈ sortedTags g) : t.plain = true := by
  rw [sortedTags, List.mem_insertionSort] at ht
  obtain ⟨u,hu,ht⟩ := List.mem_flatMap.mp ht
  exact hplain.2 u (mem_collect hg hu) t ht

/-- Where the uses list the tags in order and the values are plain, the digest tells all of the tags. -/
theorem tags_same (hplain : Plain r) (hplain' : Plain r')
    (h : r.declared.usagesJson r.extension = r'.declared.usagesJson r'.extension) :
    toldTags r' = toldTags r := by
  rw [hplain.1, hplain'.1, digestTags, digestTags]
  congr 2
  refine (map_eq_of (fun g hg g' hg' htold => ?_) (usagesJson_told h)).symm
  obtain ⟨hheader,htags⟩ := Prod.mk.inj htold
  have hname : g.first.module.name = g'.first.module.name := congrArg (fun t => t.2.1) hheader
  rw [hname, map_eq_of (fun t ht t' ht' => tagJson_seen (plain_sorted hplain hg ht)
    (plain_sorted hplain' hg' ht')) htags]

end Modules

section RootRun

def devRoot (dev : Bool) : Module :=
  ⟨.root,"app",.empty,"app",[],[],none,[⟨"//:ext.bzl","ext",false,dev⟩]⟩

def extText : Bytes :=
  "ext = module_extension(implementation = lambda ctx: None)".toList.map fun c => .ofNat c.toNat

def extFile : BzlFile := ⟨⟨"","","ext.bzl"⟩,extText,[],[],[]⟩

def extLoaded : Loaded where
  files := [extFile]
  once := List.nodup_singleton _
  loadsFirst := by
    intro done f later h l hl
    cases done with
    | nil =>
      cases h
      cases hl
    | cons g done => cases done <;> cases h
  named := by
    intro f hf
    obtain rfl := List.mem_singleton.mp hf
    exact ⟨by decide,fun name hname => nomatch hname⟩

def devUse : ExtensionInstance := ⟨"","//:ext.bzl%ext","ext",[(.root,0)]⟩

/-- A root module with one use that has no tags. -/
def rootRun (dev : Bool) (imports : List (String × String)) : ExtensionRun where
  declared := ⟨.rootOnly (devRoot dev),fun _ _ => ⟨imports,[],[]⟩⟩
  extension := devUse
  used := by
    show _ ∈ (Resolution.rootOnly (devRoot dev)).extensions
    cases dev <;> decide
  loaded := extLoaded
  fileLoaded := by decide
  facts := []
  about := ⟨"//:ext.bzl%ext",none,"ext","//:ext.bzl","+ext",[⟨true,dev,imports,[],""⟩],"",fun _ => [],""⟩
  session := {
    layout := ⟨["w".toList],["e".toList],none,none⟩
    sha256 := fun _ => []
    world := ⟨fun _ => none,fun _ => none,fun _ _ => none⟩
    os := "linux"
    arch := "amd64"
    bzlDigest := none
    lookups := []
    loaded := .ok true
    implementation := .ok ⟨[],[],none,false,false,false,List.nodup_nil⟩ }
  canonical := fun _ _ h => nomatch h

def madeNothing : ExtensionOutput := ⟨[],[],none,false,false,false,List.nodup_nil⟩

theorem rootRun_extension (dev : Bool) (imports : List (String × String)) :
    (rootRun dev imports).extension = devUse := rfl

theorem rootRun_json (dev dev' : Bool) (imports imports' : List (String × String)) :
    (rootRun dev imports).declared.usagesJson (rootRun dev imports).extension =
      (rootRun dev' imports').declared.usagesJson (rootRun dev' imports').extension := by
  have hmodules : ∀ d i, (rootRun d i).declared.byModule (rootRun d i).extension =
      [⟨⟨.root,devRoot d,⟨"//:ext.bzl","ext",false,d⟩,⟨i,[],[]⟩⟩,[]⟩] := fun d i => rfl
  have hchanges : ∀ d i, (rootRun d i).declared.overridesJson (rootRun d i).extension = [] :=
    fun d i => rfl
  rw [Declared.usagesJson, Declared.usagesJson, hmodules, hmodules, hchanges, hchanges]
  rfl

theorem extLoaded_lookups (mapping : Text → Text → Option Text) (root : Label) :
    extLoaded.lookupsUnder mapping root = [] := by
  have hnone : ∀ name, extLoaded.lookupsOf mapping name = [] := by
    intro name
    rw [Loaded.lookupsOf, List.flatMap_eq_nil_iff]
    intro f hf
    obtain rfl := List.mem_singleton.mp (List.mem_of_mem_filter hf)
    rfl
  rw [Loaded.lookupsUnder, List.flatMap_eq_nil_iff.mpr fun name _ => hnone name]
  rfl

theorem rootRun_taken (sha256 : Bytes → Digest) (dev dev' : Bool)
    (imports imports' : List (String × String)) :
    ∃ entry, lockedEntry ((rootRun dev imports).toExtension sha256)
        ((rootRun dev imports).toSession sha256) madeNothing = some entry ∧
      lockedHit ((rootRun dev' imports').toExtension sha256) ((rootRun dev' imports').toSession sha256)
        [entry] = some entry := by
  have husages : ((rootRun dev' imports').toExtension sha256).usagesDigest =
      ((rootRun dev imports).toExtension sha256).usagesDigest := by
    simp only [ExtensionRun.toExtension, Declared.usagesBytes]
    rw [rootRun_json dev' dev imports' imports]
  have hid : ∀ d i, ((rootRun d i).toExtension sha256).lockId = some "//:ext.bzl%ext" := by
    intro d i
    have hsame : ∀ r : ExtensionRun, (r.toExtension sha256).lockId = r.extension.lockId := fun _ => rfl
    rw [hsame, rootRun_extension]
    decide
  have hfile : ∀ d i, (rootRun d i).file = extFile.label := by
    intro d i
    rw [ExtensionRun.file, rootRun_extension]
    decide
  have hdigest : extLoaded.transitiveDigest sha256 extFile.label = _ :=
    (Loaded.digest_of List.mem_cons_self).1
  have hbzl : ∀ d i, ((rootRun d i).toSession sha256).bzlDigest = some (base64
      (sha256 (fileBytes sha256 (extLoaded.transitiveDigest sha256) extFile)).toList) := by
    intro d i
    rw [ExtensionRun.toSession, show (rootRun d i).loaded = extLoaded from rfl,
      hfile, hdigest, Option.map_some]
  have hmade : ∃ entry, lockedEntry ((rootRun dev imports).toExtension sha256)
      ((rootRun dev imports).toSession sha256) madeNothing = some entry := by
    rw [lockedEntry, hid]
    exact ⟨_,rfl⟩
  obtain ⟨entry,hmade⟩ := hmade
  have hlock := (hid dev' imports').trans (hid dev imports).symm
  have htexts : recordedTexts ((rootRun dev imports).toSession sha256) madeNothing = [] := by
    rw [recordedTexts, ExtensionRun.toSession, show (rootRun dev imports).loaded = extLoaded from rfl,
      extLoaded_lookups]
    rfl
  have hhere : isHere ((rootRun dev' imports').toSession sha256)
      (factorsOf ((rootRun dev imports).toSession sha256) madeNothing) = true := by
    rw [show factorsOf ((rootRun dev imports).toSession sha256) madeNothing = "general" from rfl, isHere,
      beq_self_eq_true, Bool.true_or, Bool.true_or, Bool.true_or]
  refine ⟨entry,hmade,taken_again hmade hlock husages (hbzl _ _) (hbzl _ _) hhere fun t ht => ?_⟩
  rw [htexts] at ht
  cases ht

/-- What SHA-256 gives for the texts of `rootRun`, told apart by how they begin. -/
def rootDigest (text : Bytes) : Digest :=
  match text.head? with
  | some 0x7b => #v[0xee,0x2d,0x9e,0xa3,0x9f,0x23,0x27,0xce,0xf8,0xc0,0x8f,0x50,0xe9,0xaf,0xa9,0x45,
      0xff,0x68,0xf6,0x6a,0x9b,0xd7,0xd6,0x88,0xa0,0x06,0x0d,0x53,0x2f,0xf9,0xe6,0x0b]
  | some 0x65 => #v[0xa4,0x3f,0x96,0x3c,0x4f,0x35,0x3d,0x28,0x72,0x81,0x87,0x8e,0xa7,0x72,0x5f,0xc4,
      0xb3,0xcf,0x4f,0x07,0xec,0x9d,0x4e,0x06,0x62,0x02,0xa5,0x92,0xd9,0x97,0xa6,0x84]
  | _ => #v[0x78,0x18,0xc2,0x95,0xe7,0x72,0x43,0xbc,0xcf,0x0d,0x5e,0x3d,0xed,0xc0,0x12,0x7e,
      0xe3,0xb8,0xc0,0xb6,0xd4,0x3d,0x07,0xfb,0xae,0xff,0x1c,0x41,0xee,0x31,0xf2,0x3c]

theorem compact_object (fields : List (String × Json)) :
    ∃ rest, (Json.object fields).compact = '\x7b'::rest := by
  cases fields with
  | nil => exact ⟨_,rfl⟩
  | cons field fields => exact ⟨_,rfl⟩

theorem usagesBytes_head (d : Declared) (e : ExtensionInstance) :
    (d.usagesBytes e).head? = some 0x7b := by
  obtain ⟨rest,hrest⟩ := compact_object _
  rw [Declared.usagesBytes, Declared.usagesJson, hrest, Utf16.encode, String.toList_ofList,
    List.flatMap_cons, Utf16.units_single (by decide)]
  rfl

theorem rootRun_hashed (dev : Bool) (imports : List (String × String)) :
    ∃ usages, usages.head? = some 0x7b ∧ ∀ i, (rootRun dev i).hashed rootDigest =
      [usages,extText,(rootDigest extText).toList] := by
  refine ⟨_,usagesBytes_head (rootRun dev imports).declared (rootRun dev imports).extension,fun i => ?_⟩
  have hfiles : extLoaded.hashed rootDigest = [extText,(rootDigest extText).toList ++ []] := rfl
  rw [ExtensionRun.hashed, Declared.usagesBytes, rootRun_json dev dev i imports,
    show (rootRun dev i).loaded = extLoaded from rfl, hfiles, List.append_nil]
  rfl

theorem rootRun_apart (dev : Bool) (imports imports' : List (String × String)) :
    ToldApart rootDigest ((rootRun dev imports).hashed rootDigest ++
      (rootRun dev imports').hashed rootDigest) := by
  obtain ⟨usages,hhead,hhashed⟩ := rootRun_hashed dev imports
  have hdigest : ExtensionRun.digestText rootDigest usages =
      "7i2eo58jJ874wI9Q6a+pRf9o9mqb19aIoAYNUy/55gs=" := by
    rw [ExtensionRun.digestText, rootDigest, hhead]
    decide
  have htext : ExtensionRun.digestText rootDigest extText =
      "pD+WPE81PShygYeOp3JfxLPPTwfsnU4GYgKlktmXpoQ=" := by
    decide
  have hfile : ExtensionRun.digestText rootDigest (rootDigest extText).toList =
      "eBjCledyQ7zPDV497cASfuO4wLbUPQf7rv8cQe4x8jw=" := by
    decide
  have hone : ∀ x ∈ [usages,extText,(rootDigest extText).toList] ++
      [usages,extText,(rootDigest extText).toList],
      x = usages ∨ x = extText ∨ x = (rootDigest extText).toList := by
    intro x hx
    rcases List.mem_append.mp hx with hx | hx <;> simpa using hx
  rw [hhashed, hhashed]
  intro x hx y hy h
  rcases hone x hx with hx | hx | hx <;> rcases hone y hy with hy | hy | hy <;>
    rw [hx, hy] at h ⊢ <;> simp only [hdigest, htext, hfile] at h <;> exact absurd h (by decide)

end RootRun

end BuildFiji.Replay
