import Rulebook.Proofs.Settings.Layers
import Rulebook.Proofs.Toml

/-! Settings are loaded key by key: the value of each comes from the last source that gives one. -/

namespace Rulebook.Settings

structure Sources where
  directory : String → Option String
  service : String
  environment : String
  vars : Variables

namespace Sources

def load (src : Sources) : Except SettingsFault Settings :=
  Settings.load src.directory src.service src.environment src.vars

/-- The table in the file of a name. A file of which nothing but the ending is left does not count,
whatever is in it. -/
def table? (src : Sources) (name : String) : Option (Entries Setting) :=
  if name = "" then none else (src.directory (name ++ ".toml")).bind Toml.parse

def fileGives (src : Sources) (name : String) (k : Key) : Option Setting :=
  (src.table? name).bind fun es => (Setting.table es).at? k.path

def variableGives (src : Sources) (k : Key) : Option Setting :=
  Entries.get? k.text (variableLayer src.vars)

/-- What the sources give a key, the one that counts most first. -/
def given (src : Sources) (k : Key) : List (Option Setting) :=
  [src.variableGives k, src.fileGives src.service k, src.fileGives src.environment k,
    src.fileGives "default" k]

/-- The files are documents with plain keys and with tables for parts. No two variables name one
key, and none names a whole part or anything below a key. -/
structure Plain (src : Sources) : Prop where
  files {file : String} : src.directory file ≠ none →
    ∃ name ∈ names src.service src.environment, file = name ++ ".toml"
  documents {name text : String} : name ∈ names src.service src.environment →
    src.directory (name ++ ".toml") = some text →
    ∃ es, Toml.parse text = some es ∧ Sectioned es ∧
      ∀ e ∈ es, '.' ∉ e.1.toList ∧ '[' ∉ e.1.toList
  distinct : ((variableLayer src.vars).map Prod.fst).Nodup
  part : ∀ e ∈ variableLayer src.vars, ∀ part ∈ parts, Path.ofKey e.1 ≠ [.member part]
  below : ∀ e ∈ variableLayer src.vars, ∀ (k : Key) s rest,
    Path.ofKey e.1 ≠ k.path.map .member ++ s :: rest

variable {src : Sources}

theorem Plain.exists_table (h : src.Plain) {name text : String}
    (hname : name ∈ names src.service src.environment)
    (hfile : src.directory (name ++ ".toml") = some text) :
    ∃ es, Toml.parse text = some es ∧ Layer.Gives es fun k => (Setting.table es).at? k.path := by
  obtain ⟨es, hparse, hsectioned, hkeys⟩ := h.documents hname hfile
  refine ⟨es, hparse, Layer.gives_of_plain (fun e he => ?_) (Toml.ordered_of_parse hparse)
    (open_table_iff.mpr hsectioned)⟩
  exact ofKey_of_plain (hkeys e he).1 (hkeys e he).2

def base (src : Sources) : Layer :=
  [("service_name", .text src.service), ("environment", .text src.environment)]

end Sources
end Rulebook.Settings
