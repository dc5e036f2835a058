import BuildFiji.Bzlmod.Extensions
import BuildFiji.Bzlmod.JsonText
import BuildFiji.Lib.Grouped
import BuildFiji.Lib.Utf16
import Mathlib.Data.List.Sort
import Std.Data.String.ToInt

/-!
# What modules say to an extension

Every use of an extension imports repositories from it, makes tag calls and puts other
repositories in the place of its own. The lockfile keeps a digest of it, module by module:
the tags of a module in the order of its file, their values as JSON without what is `None`.
Where a tag was and what was imported is left out, and so is which use a tag was made on.
-/

set_option autoImplicit false
set_option linter.all false

namespace BuildFiji.Bzlmod

open BuildFiji.Grouped

inductive AttrValue where
  | none
  | bool (b : Bool)
  | int (i : ℤ)
  | string (s : String)
  | list (items : List AttrValue)
  | dict (entries : List (AttrValue × AttrValue))

/-- `seq` counts the tag calls of a module file. -/
structure Tag where
  tagClass : String
  attrs : List (String × AttrValue)
  devDependency : Bool
  location : String
  seq : ℕ

structure RepoOverride where
  overriddenRepoName : String
  overridingRepoName : String
  mustExist : Bool

/-- What a usage says beyond which extension it is of. -/
structure Said where
  imports : List (String × String)
  tags : List Tag
  repoOverrides : List RepoOverride

/-- A module graph with what each usage says. -/
structure Declared where
  res : Resolution
  said : ModuleKey → ℕ → Said

structure Use where
  key : ModuleKey
  module : Module
  usage : ExtensionUsage
  said : Said

section Json

mutual

/-- `to_string`. -/
def Json.compact : Json → List Char
  | .null => "null".toList
  | .bool true => "true".toList
  | .bool false => "false".toList
  | .number text => text.toList
  | .string s => quoted s
  | .array [] => ['[',']']
  | .array (item::items) => '['::(item.compact ++ compactItems items ++ [']'])
  | .object [] => ['\x7b','\x7d']
  | .object ((key,value)::entries) =>
    '\x7b'::(quoted key ++ ':'::(value.compact ++ compactEntries entries ++ ['\x7d']))

def compactItems : List Json → List Char
  | [] => []
  | item::items => ','::(item.compact ++ compactItems items)

def compactEntries : List (String × Json) → List Char
  | [] => []
  | (key,value)::entries => ','::(quoted key ++ ':'::(value.compact ++ compactEntries entries))

end

def keyText : AttrValue → String
  | .string s => s
  | .int i => toString i
  | .bool true => "True"
  | .bool false => "False"
  | _ => ""

mutual

/-- `None` stays in a list and is left out of a dict. -/
def attrJson : AttrValue → Json
  | .none => .null
  | .bool b => .bool b
  | .int i => .number (toString i)
  | .string s => .string s
  | .list items => .array (itemsJson items)
  | .dict entries => .object (entriesJson entries)

def itemsJson : List AttrValue → List Json
  | [] => []
  | item::items => attrJson item::itemsJson items

def entriesJson : List (AttrValue × AttrValue) → List (String × Json)
  | [] => []
  | (_,.none)::entries => entriesJson entries
  | (key,value)::entries => (keyText key,attrJson value)::entriesJson entries

end

def attrsJson : List (String × AttrValue) → List (String × Json)
  | [] => []
  | (_,.none)::attrs => attrsJson attrs
  | (name,value)::attrs => (name,attrJson value)::attrsJson attrs

def tagJson (tag : Tag) : Json :=
  .object [("tagName",.string tag.tagClass),("attributeValues",.object (attrsJson tag.attrs)),
    ("devDependency",.bool tag.devDependency),
    ("location",.object [("file",.string "<builtin>"),("line",.number "0"),("column",.number "0")])]

def normalizedBzl (written repoName : String) : String :=
  match written.toList.dropPrefix? "//".toList with
  | some rest => "@" ++ repoName ++ "//" ++ .ofList rest
  | none => if written.toList.head? = some ':' then "@" ++ repoName ++ "//" ++ written else written

/-- The tags of a module, whichever usages they are of, in the order of its file. -/
def sortedTags (g : Gathered Use) : List Tag :=
  (g.all.flatMap fun u => u.said.tags).insertionSort fun a b => a.seq ≤ b.seq

def usageJson (g : Gathered Use) : Json :=
  .object [("extensionBzlFile",.string (normalizedBzl g.first.usage.bzlFile g.first.module.repoName)),
    ("extensionName",.string g.first.usage.extensionName),("proxies",.array []),
    ("tags",.array ((sortedTags g).map tagJson)),("repoOverrides",.object [])]

def moduleJson (u : Use) : Json :=
  .object [("name",.string u.module.name),("version",.string u.module.version.normalized),
    ("key",.string u.key.toString)]

end Json

namespace Declared
variable (d : Declared)

def useAt (u : ModuleKey × ℕ) : Option Use := do
  let module ← d.res.selection.resolved.lookup u.1
  let usage ← module.extensionUsages[u.2]?
  return ⟨u.1,module,usage,d.said u.1 u.2⟩

def uses (e : ExtensionInstance) : List Use := e.usages.filterMap d.useAt

def byModule (e : ExtensionInstance) : List (Gathered Use) := collect Use.key (d.uses e)

/-- What the root module put in the place of each repository of each extension. -/
abbrev Targets := ℕ → String → Option String

def root : Option (ModuleKey × Module) := d.res.selection.resolved.find? fun p => p.1.isRoot

def moduleMapping (key : ModuleKey) (module : Module) (extensions : List ExtensionInstance)
    (overrides : Targets) : List (String × String) :=
  (module.extensionUsages.zipIdx.flatMap fun u =>
    match extensions.zipIdx.find? fun e => e.1.usages.contains (key,u.2) with
    | none => []
    | some (extension,index) => (d.said key u.2).imports.map fun (name,exported) =>
      (name,(overrides index exported).getD (extension.repoName exported))) ++
  d.res.baseRows key module

/-- What the root module says of the repositories of an extension. -/
def rootChanges (e : ExtensionInstance) : List RepoOverride :=
  (e.usages.filter fun u => u.1.isRoot).flatMap fun u => (d.said u.1 u.2).repoOverrides

def seenAs (rows : List (String × String)) (name : String) : Option String :=
  (rows.find? fun row => row.1 == name).map Prod.snd

def addTarget (rows : List (String × String)) (index : ℕ) (targets : Targets)
    (change : RepoOverride) : Targets :=
  match seenAs rows change.overridingRepoName with
  | some canonical => Function.update targets index
      (Function.update (targets index) change.overriddenRepoName (some canonical))
  | none => targets

def overrideTargets (extensions : List ExtensionInstance) : Targets :=
  match d.root with
  | none => fun _ _ => none
  | some (key,module) =>
    let seen := d.moduleMapping key module extensions fun _ _ => none
    extensions.zipIdx.foldl (fun targets e => (d.rootChanges e.1).foldl (addTarget seen e.2) targets)
      fun _ _ => none

def overridesJson (e : ExtensionInstance) : List (String × Json) :=
  let extensions := d.res.extensions
  let targets := d.overrideTargets extensions
  match d.root with
  | none => []
  | some (key,module) => (d.rootChanges e).filterMap fun change =>
    let target := (extensions.idxOf? e).bind fun index => targets index change.overriddenRepoName
    let target := target <|>
      seenAs (d.moduleMapping key module extensions fun _ _ => none) change.overridingRepoName
    target.map fun canonical => (change.overriddenRepoName,.string canonical)

def usagesJson (e : ExtensionInstance) : Json :=
  .object [
    ("extensionUsages",.object ((d.byModule e).map fun g => (g.first.key.toString,usageJson g))),
    ("extensionUniqueName",.string (e.bzlRepo ++ "+" ++ e.uniqueName)),
    ("abridgedModules",.array ((d.byModule e).map fun g => moduleJson g.first)),
    ("repoMappings",.object []),("repoOverrides",.object (d.overridesJson e))]

/-- The bytes that are hashed: the compact text, in UTF-16. -/
def usagesBytes (e : ExtensionInstance) : List UInt8 :=
  Utf16.encode (.ofList (d.usagesJson e).compact)

end Declared

section Base64

def base64Char (n : ℕ) : Char :=
  ("ABCDEFGHIJKLMNOPQRSTUVWXYZabcdefghijklmnopqrstuvwxyz0123456789+/".toList).getD n '='

def base64Chars : List UInt8 → List Char
  | a::b::c::rest =>
    let n := a.toNat*65536+b.toNat*256+c.toNat
    base64Char (n/262144)::base64Char (n/4096%64)::base64Char (n/64%64)::base64Char (n%64)::
      base64Chars rest
  | [a,b] =>
    let n := a.toNat*1024+b.toNat*4
    [base64Char (n/4096),base64Char (n/64%64),base64Char (n%64),'=']
  | [a] => [base64Char (a.toNat/4),base64Char (a.toNat%4*16),'=','=']
  | [] => []

def base64 (bytes : List UInt8) : String := .ofList (base64Chars bytes)

example : base64 [0x4d,0x61,0x6e,0x4d] = "TWFuTQ==" := by decide

end Base64

/-- What `use_repo_rule` makes has no entry. -/
def ExtensionInstance.lockId (e : ExtensionInstance) : Option String :=
  if "@@".toList.isPrefixOf e.id.toList then none
  else some (if e.bzlRepo = "" then e.id else "@@" ++ e.bzlRepo ++ e.id)

section Told

theorem toString_isRoot {k l : ModuleKey} (h : k.toString = l.toString) : k.isRoot = l.isRoot := by
  have hat : ∀ key : ModuleKey, key.isRoot = false → '@' ∈ key.toString.toList := by
    intro key hkey
    rw [ModuleKey.toString, hkey, if_neg Bool.false_ne_true]
    split
    · simp
    · simp
  have hroot : ∀ key : ModuleKey, key.isRoot = true → '@' ∉ key.toString.toList := by
    intro key hkey
    rw [ModuleKey.toString, hkey, if_pos rfl]
    decide
  cases hk : k.isRoot with
  | true =>
    cases hl : l.isRoot with
    | true => rfl
    | false => exact absurd (h ▸ hat l hl) (hroot k hk)
  | false =>
    cases hl : l.isRoot with
    | true => exact absurd (h ▸ hat k hk) (hroot l hl)
    | false => rfl

/-- What the text says of a module, but for its tags. -/
def Use.header (u : Use) : String × String × String :=
  (u.key.toString,u.module.name,u.module.version.normalized)

theorem moduleJson_header {u v : Use} (h : moduleJson u = moduleJson v) : u.header = v.header := by
  simp only [moduleJson, Json.object.injEq, List.cons.injEq, Prod.mk.injEq, Json.string.injEq,
    true_and, and_true] at h
  rw [Use.header, Use.header, h.1, h.2.1, h.2.2]

theorem usageJson_tags {g g' : Gathered Use} (h : usageJson g = usageJson g') :
    (sortedTags g).map tagJson = (sortedTags g').map tagJson := by
  simp only [usageJson, Json.object.injEq, List.cons.injEq, Prod.mk.injEq, Json.array.injEq,
    true_and, and_true] at h
  exact h.2.2

/-- Equal texts tell of the same modules, and of tags that are written the same. -/
theorem usagesJson_told {d d' : Declared} {e e' : ExtensionInstance}
    (h : d.usagesJson e = d'.usagesJson e') :
    (d.byModule e).map (fun g => (g.first.header,(sortedTags g).map tagJson)) =
      (d'.byModule e').map fun g => (g.first.header,(sortedTags g).map tagJson) := by
  simp only [Declared.usagesJson, Json.object.injEq, List.cons.injEq, Prod.mk.injEq,
    Json.array.injEq, Json.string.injEq, true_and, and_true] at h
  obtain ⟨husages,-,hmodules,-⟩ := h
  generalize d.byModule e = gs at *
  generalize d'.byModule e' = gs' at *
  induction gs generalizing gs' with
  | nil =>
    cases gs' with
    | nil => rfl
    | cons g' gs' => cases hmodules
  | cons g gs ih =>
    cases gs' with
    | nil => cases hmodules
    | cons g' gs' =>
      obtain ⟨hu,husages⟩ := List.cons.inj husages
      obtain ⟨hm,hmodules⟩ := List.cons.inj hmodules
      rw [List.map_cons, List.map_cons, ih _ husages hmodules, moduleJson_header hm,
        usageJson_tags (Prod.mk.inj hu).2]

end Told

section Plain

def AttrValue.isNone : AttrValue → Bool
  | .none => true
  | _ => false

def AttrValue.isString : AttrValue → Bool
  | .string _ => true
  | _ => false

mutual

/-- A dict has strings for its keys, and no `None` for a value. -/
def AttrValue.plain : AttrValue → Bool
  | .list items => itemsPlain items
  | .dict entries => entriesPlain entries
  | _ => true

def itemsPlain : List AttrValue → Bool
  | [] => true
  | item::items => item.plain && itemsPlain items

def entriesPlain : List (AttrValue × AttrValue) → Bool
  | [] => true
  | (key,value)::entries => key.isString && !value.isNone && value.plain && entriesPlain entries

end

/-- No attribute is `None` either. -/
def Tag.plain (tag : Tag) : Bool := tag.attrs.all fun a => !a.2.isNone && a.2.plain

theorem entriesJson_cons {key value : AttrValue} {entries : List (AttrValue × AttrValue)}
    (h : value.isNone = false) :
    entriesJson ((key,value)::entries) = (keyText key,attrJson value)::entriesJson entries := by
  cases value with
  | none => cases h
  | _ => rfl

theorem attrsJson_cons {name : String} {value : AttrValue} {attrs : List (String × AttrValue)}
    (h : value.isNone = false) : attrsJson ((name,value)::attrs) = (name,attrJson value)::attrsJson attrs := by
  cases value with
  | none => cases h
  | _ => rfl

theorem keyText_inj {a b : AttrValue} (ha : a.isString = true) (hb : b.isString = true)
    (h : keyText a = keyText b) : a = b := by
  cases a with
  | string s =>
    cases b with
    | string t => exact congrArg AttrValue.string h
    | _ => cases hb
  | _ => cases ha

mutual

theorem attrJson_inj {v w : AttrValue} (hv : v.plain = true) (hw : w.plain = true)
    (h : attrJson v = attrJson w) : v = w := by
  match v, w with
  | .none, w => cases w <;> first | rfl | cases h
  | .bool b, w => cases w <;> first | (cases h; rfl) | cases h
  | .int i, w =>
    cases w with
    | int j =>
      rw [attrJson, attrJson, Json.number.injEq] at h
      exact congrArg AttrValue.int (Int.repr_injective h)
    | _ => cases h
  | .string s, w => cases w <;> first | (cases h; rfl) | cases h
  | .list items, w =>
    cases w with
    | list items' =>
      rw [attrJson, attrJson, Json.array.injEq] at h
      exact congrArg AttrValue.list (itemsJson_inj hv hw h)
    | _ => cases h
  | .dict entries, w =>
    cases w with
    | dict entries' =>
      rw [attrJson, attrJson, Json.object.injEq] at h
      exact congrArg AttrValue.dict (entriesJson_inj hv hw h)
    | _ => cases h

theorem itemsJson_inj {vs ws : List AttrValue} (hv : itemsPlain vs = true) (hw : itemsPlain ws = true)
    (h : itemsJson vs = itemsJson ws) : vs = ws := by
  match vs, ws with
  | [], [] => rfl
  | [], _::_ => cases h
  | _::_, [] => cases h
  | v::vs, w::ws =>
    obtain ⟨hv1,hv2⟩ := Bool.and_eq_true_iff.mp hv
    obtain ⟨hw1,hw2⟩ := Bool.and_eq_true_iff.mp hw
    obtain ⟨h1,h2⟩ := List.cons.inj h
    rw [attrJson_inj hv1 hw1 h1, itemsJson_inj hv2 hw2 h2]

theorem entriesJson_inj {vs ws : List (AttrValue × AttrValue)} (hv : entriesPlain vs = true)
    (hw : entriesPlain ws = true) (h : entriesJson vs = entriesJson ws) : vs = ws := by
  match vs, ws with
  | [], [] => rfl
  | [], (key,value)::ws =>
    simp only [entriesPlain, Bool.and_eq_true, Bool.not_eq_true'] at hw
    rw [entriesJson_cons hw.1.1.2] at h
    cases h
  | (key,value)::vs, [] =>
    simp only [entriesPlain, Bool.and_eq_true, Bool.not_eq_true'] at hv
    rw [entriesJson_cons hv.1.1.2] at h
    cases h
  | (key,value)::vs, (key',value')::ws =>
    simp only [entriesPlain, Bool.and_eq_true, Bool.not_eq_true'] at hv hw
    obtain ⟨⟨⟨hk,hn⟩,hp⟩,hv⟩ := hv
    obtain ⟨⟨⟨hk',hn'⟩,hp'⟩,hw⟩ := hw
    rw [entriesJson_cons hn, entriesJson_cons hn', List.cons.injEq, Prod.mk.injEq] at h
    rw [keyText_inj hk hk' h.1.1, attrJson_inj hp hp' h.1.2, entriesJson_inj hv hw h.2]

end

theorem attrsJson_inj {xs ys : List (String × AttrValue)}
    (hx : (xs.all fun a => !a.2.isNone && a.2.plain) = true)
    (hy : (ys.all fun a => !a.2.isNone && a.2.plain) = true) (h : attrsJson xs = attrsJson ys) :
    xs = ys := by
  induction xs generalizing ys with
  | nil =>
    cases ys with
    | nil => rfl
    | cons y ys =>
      simp only [List.all_cons, Bool.and_eq_true, Bool.not_eq_true'] at hy
      rw [attrsJson_cons hy.1.1] at h
      cases h
  | cons x xs ih =>
    simp only [List.all_cons, Bool.and_eq_true, Bool.not_eq_true'] at hx
    cases ys with
    | nil =>
      rw [attrsJson_cons hx.1.1] at h
      cases h
    | cons y ys =>
      simp only [List.all_cons, Bool.and_eq_true, Bool.not_eq_true'] at hy
      rw [attrsJson_cons hx.1.1, attrsJson_cons hy.1.1, List.cons.injEq, Prod.mk.injEq] at h
      rw [ih hx.2 hy.2 h.2, Prod.ext h.1.1 (attrJson_inj hx.1.2 hy.1.2 h.1.2)]

end Plain

end BuildFiji.Bzlmod
