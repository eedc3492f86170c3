import CogServer.HttpExceptions
import CogServer.PathWalk

/-! The static pages of the web server, and the directory that they stay in. -/
namespace CogServer

open PathWalk

inductive FileKind
  | directory | regular (content : Bytes) | other
  deriving DecidableEq, Repr

/-- What `stat` and `open` see of a file system. -/
structure FileTree (ν : Type*) where
  root : ν
  cwd : ν
  parent : ν → ν
  kind : ν → FileKind
  entry : ν → Bytes → Option (Entry ν Bytes)
  /-- The file may be opened. -/
  readable : ν → Bool
  /-- The longest path, and the number of links on the way, that the system takes. -/
  pathMax : ℕ
  maxLinks : ℕ

def slash : UInt8 := 47

/-- `PROJECT_INSTALL_PREFIX`, a string literal. -/
structure InstallPrefix where
  text : Bytes
  noNul : 0 ∉ text

namespace FileTree

variable {ν : Type*}

def tree (F : FileTree ν) : PathWalk.Tree ν Bytes := ⟨F.root, F.parent, (F.kind · = .directory), F.entry⟩

def component (name : Bytes) : Component Bytes :=
  if name = [] ∨ name = ascii "." then .stay
  else if name = ascii ".." then .up
  else .name name

def components (path : Bytes) : List (Component Bytes) := (path.splitOn slash).map component

/-- The file that a path leads to. -/
def resolve (F : FileTree ν) (path : Bytes) : Option ν :=
  if path = [] ∨ F.pathMax ≤ path.length then none
  else F.tree.walk F.maxLinks (if path.head? = some slash then F.root else F.cwd) (components path)

/-- `stat` of a C string. -/
def stat (F : FileTree ν) (path : Bytes) : Option FileKind := (F.resolve (cStr path)).map F.kind

theorem components_append (s t : Bytes) :
    components (s ++ slash :: t) = components s ++ components t := by
  rw [components, List.splitOn_append_cons_self, List.map_append]
  rfl

theorem component_eq_up {name : Bytes} : component name = .up ↔ name = ascii ".." := by
  unfold component
  split_ifs with hstay hup
  · refine iff_of_false nofun ?_
    rintro rfl
    exact absurd hstay (by decide)
  · exact iff_of_true rfl hup
  · exact iff_of_false nofun hup

/-- A text without two dots has no component that goes up. -/
theorem up_not_mem_components {s : Bytes} (h : ¬ ascii ".." <:+: s) : .up ∉ components s := by
  intro hmem
  obtain ⟨name, hname, hup⟩ := List.mem_map.mp hmem
  exact h (component_eq_up.mp hup ▸ infix_of_mem_splitOn hname)

variable {F : FileTree ν} {base rest : Bytes} {b m : ν}

theorem resolve_append (hbase : base ≠ []) (h : F.resolve (base ++ slash :: rest) = some m) :
    F.resolve base = F.tree.walk F.maxLinks (if base.head? = some slash then F.root else F.cwd)
        (components base) ∧
      F.tree.walk F.maxLinks (if base.head? = some slash then F.root else F.cwd)
        (components base ++ components rest) = some m := by
  have hlong : ¬ F.pathMax ≤ (base ++ slash :: rest).length := by
    intro hlong
    rw [resolve, if_pos (.inr hlong)] at h
    cases h
  have hshort : ¬ (base = [] ∨ F.pathMax ≤ base.length) := by
    rw [List.length_append] at hlong
    exact not_or.mpr ⟨hbase, fun hle => hlong (Nat.le_add_right_of_le hle)⟩
  have hlong' : ¬ (base ++ slash :: rest = [] ∨ F.pathMax ≤ (base ++ slash :: rest).length) :=
    not_or.mpr ⟨List.append_ne_nil_of_left_ne_nil hbase _, hlong⟩
  rw [resolve, if_neg hlong', components_append, List.head?_append_of_ne_nil _ hbase] at h
  rw [resolve, if_neg hshort]
  exact ⟨rfl, h⟩

/-- What follows a directory in a path, and goes up nowhere, ends below the directory. -/
theorem below_of_resolve (hlinks : ∀ b, F.resolve base = some b → F.tree.NoLinks b)
    (hbase : base ≠ []) (hup : .up ∉ components rest)
    (h : F.resolve (base ++ slash :: rest) = some m) :
    ∃ b, F.resolve base = some b ∧ F.kind b = .directory ∧ F.tree.Below b m := by
  obtain ⟨hb, hm⟩ := resolve_append hbase h
  obtain ⟨b, links, hwalk, hrest⟩ := Tree.splits_walk _ _ _ _ _ hm
  have hne : components rest ≠ [] :=
    fun h => List.splitOn_ne_nil slash rest (List.map_eq_nil_iff.mp h)
  obtain ⟨p, ps, hparts⟩ := List.exists_cons_of_ne_nil hne
  rw [hwalk] at hb
  refine ⟨b, hb, ?_, Tree.walk_below (hlinks b hb) .refl hup hrest⟩
  rw [hparts] at hrest
  exact of_decide_eq_true (Tree.walk_isDir hrest)

end FileTree

namespace PageServer

variable {ν : Type*}

/-- `base_path` -/
def basePath (installPrefix : InstallPrefix) : Bytes :=
  installPrefix.text ++ ascii "/share/cogserver"

def indexHtml : Bytes := ascii "/index.html"

def getMimeType (filename : Bytes) : Bytes :=
  if 46 ∈ filename then
    let ext := 46 :: (filename.reverse.takeWhile (· ≠ 46)).reverse
    if ext = ascii ".html" ∨ ext = ascii ".htm" then ascii "text/html"
    else if ext = ascii ".css" then ascii "text/css"
    else if ext = ascii ".js" then ascii "application/javascript"
    else if ext = ascii ".ico" then ascii "image/x-icon"
    else ascii "application/octet-stream"
  else ascii "application/octet-stream"

/-- A file that cannot be opened reads as empty. -/
def readFile (F : FileTree ν) (filepath : Bytes) : Bytes :=
  match F.resolve (cStr filepath) with
  | none => []
  | some m =>
    match F.kind m with
    | .regular content => if F.readable m then content else []
    | .directory | .other => []

/-- Both tests for a leading slash come to the same. -/
def isSafePath (path : Bytes) : Bool := ¬ ascii ".." <:+: path

/-- A response with its header. -/
def page (status mimeType body : Bytes) : Bytes :=
  ascii "HTTP/1.1 " ++ status ++ ascii "\r\nServer: CogServer\r\nContent-Type: " ++ mimeType ++
    ascii "\r\nContent-Length: " ++ decimal body.length ++ ascii "\r\n\r\n" ++ body

def notFound (url : Bytes) : Bytes :=
  page (ascii "404 Not Found") (ascii "text/html")
    (ascii "<!DOCTYPE html>\n<html lang=\"en\">\n<head><meta charset=\"UTF-8\"></head>\n" ++
      ascii "<body><h1>404 Not Found</h1>\nThe Cogserver doesn't know about " ++ url ++ ascii "\n" ++
      ascii "<p>The <a href=\"/stats\">stats page is here</a>.\n" ++
      ascii "<p>The <a href=\"/websockets/json-test.html\">JSON test page is here</a>.\n" ++
      ascii "<p>The <a href=\"/websockets/demo.html\">websockets demo is here</a>.\n" ++
      ascii "<p>The <a href=\"/visualizer/\">visualizer is here</a>.\n</body></html>\n")

/-- The paths that were passed to `stat` or opened, and the response. -/
structure Served where
  paths : List Bytes
  response : Bytes
  deriving DecidableEq, Repr

/-- The file path of a URL without its query. -/
def filePath (base path : Bytes) : Bytes :=
  if path = [slash] ∨ path = [] then base ++ indexHtml
  else if path.head? = some slash then base ++ path
  else base ++ slash :: path

/-- The end of `serve`, with the path of a regular file. -/
def serveFile (F : FileTree ν) (url filepath : Bytes) (paths : List Bytes) : Served :=
  let content := readFile F filepath
  ⟨paths ++ [cStr filepath],
    if content = [] then notFound url else page (ascii "200 OK") (getMimeType filepath) content⟩

def serve (F : FileTree ν) (installPrefix : InstallPrefix) (url : Bytes) : Served :=
  let path := url.takeWhile (· ≠ 63)
  if isSafePath path then
    let filepath := filePath (basePath installPrefix) path
    match F.stat filepath with
    | some (.regular _) => serveFile F url filepath [cStr filepath]
    -- The index page of a directory has to be a regular file.
    | some .directory =>
      let index := filepath ++ indexHtml
      match F.stat index with
      | some (.regular _) => serveFile F url index [cStr filepath, cStr index]
      | _ => ⟨[cStr filepath, cStr index], notFound url⟩
    | _ => ⟨[cStr filepath], notFound url⟩
  else ⟨[], notFound url⟩

variable {F : FileTree ν} {installPrefix : InstallPrefix} {url path filepath : Bytes}

open FileTree

theorem basePath_noNul : 0 ∉ basePath installPrefix := by
  rw [basePath, List.mem_append, not_or]
  exact ⟨installPrefix.noNul, by decide⟩

theorem basePath_ne_nil : basePath installPrefix ≠ [] :=
  List.append_ne_nil_of_right_ne_nil _ (by decide)

/-- A path that begins with the base path and goes up nowhere after that. -/
def Confined (installPrefix : InstallPrefix) (filepath : Bytes) : Prop :=
  ∃ rest, filepath = basePath installPrefix ++ slash :: rest ∧ .up ∉ components (cStr rest)

theorem up_not_mem_cStr {s t : Bytes} (hs : .up ∉ components (cStr s))
    (ht : .up ∉ components (cStr t)) : .up ∉ components (cStr (s ++ slash :: t)) := by
  have hslash : cStr (slash :: t) = slash :: cStr t := List.takeWhile_cons_of_pos (by decide)
  by_cases h0 : 0 ∈ s
  · -- what was appended is behind a NUL
    rwa [cStr_append_of_mem h0]
  · rw [cStr_append_of_not_mem h0, hslash, components_append, List.mem_append, not_or]
    exact ⟨cStr_of_not_mem h0 ▸ hs, ht⟩

theorem up_not_mem_of_safe (h : isSafePath path = true) : .up ∉ components (cStr path) := by
  refine up_not_mem_components fun hup => ?_
  exact of_decide_eq_true h (hup.trans (List.takeWhile_prefix _).isInfix)

theorem confined_filePath (installPrefix : InstallPrefix) (h : isSafePath path = true) :
    Confined installPrefix (filePath (basePath installPrefix) path) := by
  have hup := up_not_mem_of_safe h
  unfold filePath
  split_ifs with hroot hslash
  · exact ⟨ascii "index.html", rfl, by decide⟩
  · obtain ⟨rest, rfl⟩ : ∃ rest, path = slash :: rest := List.head?_eq_some_iff.mp hslash
    have hrest : isSafePath rest = true :=
      decide_eq_true fun hdots =>
        of_decide_eq_true h (hdots.trans (List.suffix_cons slash rest).isInfix)
    exact ⟨rest, rfl, up_not_mem_of_safe hrest⟩
  · exact ⟨path, rfl, hup⟩

theorem confined_index (h : Confined installPrefix filepath) :
    Confined installPrefix (filepath ++ indexHtml) := by
  obtain ⟨rest, rfl, hup⟩ := h
  exact ⟨rest ++ indexHtml, by rw [List.append_assoc, List.cons_append],
    up_not_mem_cStr (t := ascii "index.html") hup (by decide)⟩

/-- What a path of the page server resolves to is the base directory, or below it. -/
theorem below_of_confined
    (hlinks : ∀ b, F.resolve (basePath installPrefix) = some b → F.tree.NoLinks b)
    (h : Confined installPrefix filepath) {m : ν} (hm : F.resolve (cStr filepath) = some m) : ∃ b,
    F.resolve (basePath installPrefix) = some b ∧ F.kind b = .directory ∧ F.tree.Below b m := by
  obtain ⟨rest, rfl, hup⟩ := h
  have hcut : cStr (slash :: rest) = slash :: cStr rest := List.takeWhile_cons_of_pos (by decide)
  rw [cStr_append_of_not_mem basePath_noNul, hcut] at hm
  exact below_of_resolve hlinks basePath_ne_nil hup hm

theorem serveFile_cases (url : Bytes) {content : Bytes} (paths : List Bytes)
    (h : F.stat filepath = some (.regular content)) :
    (serveFile F url filepath paths).response = notFound url ∨
      ∃ m, F.resolve (cStr filepath) = some m ∧ F.kind m = .regular content ∧
        (serveFile F url filepath paths).response =
          page (ascii "200 OK") (getMimeType filepath) content := by
  obtain ⟨m, hm, hkind⟩ := Option.map_eq_some_iff.mp h
  simp only [serveFile, readFile, hm, hkind]
  split_ifs with hreadable hempty
  · exact .inl rfl
  · exact .inr ⟨m, rfl, hkind, rfl⟩
  · exact .inl rfl
  · contradiction

/-- What `serve` does: it passes confined paths, and answers with a page or none. -/
structure Answers (F : FileTree ν) (installPrefix : InstallPrefix) (url : Bytes)
    (s : Served) : Prop where
  paths : ∀ p ∈ s.paths, ∃ filepath, Confined installPrefix filepath ∧ p = cStr filepath
  response : s.response = notFound url ∨
    ∃ filepath m content, Confined installPrefix filepath ∧ F.resolve (cStr filepath) = some m ∧
      F.kind m = .regular content ∧
      s.response = page (ascii "200 OK") (getMimeType filepath) content

theorem answers_paths {filepaths : List Bytes} (h : ∀ p ∈ filepaths, Confined installPrefix p) :
    ∀ p ∈ filepaths.map cStr, ∃ filepath, Confined installPrefix filepath ∧ p = cStr filepath := by
  intro p hp
  obtain ⟨filepath, hmem, rfl⟩ := List.mem_map.mp hp
  exact ⟨filepath, h filepath hmem, rfl⟩

theorem answers_notFound {filepaths : List Bytes} (h : ∀ p ∈ filepaths, Confined installPrefix p) :
    Answers F installPrefix url ⟨filepaths.map cStr, notFound url⟩ :=
  ⟨answers_paths h, .inl rfl⟩

theorem answers_file {content : Bytes} {filepaths : List Bytes}
    (h : ∀ p ∈ filepaths ++ [filepath], Confined installPrefix p)
    (hstat : F.stat filepath = some (.regular content)) :
    Answers F installPrefix url (serveFile F url filepath (filepaths.map cStr)) := by
  have hpaths : (serveFile F url filepath (filepaths.map cStr)).paths =
      (filepaths ++ [filepath]).map cStr := by
    rw [List.map_append]
    rfl
  refine ⟨hpaths ▸ answers_paths h, ?_⟩
  rcases serveFile_cases url (filepaths.map cStr) hstat with hnone |
    ⟨m, hm, hkind, hpage⟩
  · exact .inl hnone
  · have hconfined := h filepath (List.mem_append_right _ List.mem_cons_self)
    exact .inr ⟨filepath, m, content, hconfined, hm, hkind, hpage⟩

theorem answers_serve (F : FileTree ν) (installPrefix : InstallPrefix) (url : Bytes) :
    Answers F installPrefix url (serve F installPrefix url) := by
  simp only [serve]
  split
  · rename_i hsafe
    have hfile := confined_filePath installPrefix hsafe
    have hindex := List.forall_mem_singleton.mpr (confined_index hfile)
    have hfile' := List.forall_mem_singleton.mpr hfile
    split
    · rename_i hstat
      exact answers_file (List.forall_mem_append.mpr ⟨hfile', hfile'⟩) hstat
    · have hboth := List.forall_mem_cons.mpr ⟨hfile, hindex⟩
      split
      · rename_i hstat
        exact answers_file (List.forall_mem_append.mpr ⟨hboth, hindex⟩) hstat
      · exact answers_notFound hboth
    · exact answers_notFound hfile'
  · exact answers_notFound (List.forall_mem_nil _)

/-- What the web server sends for a URL is one of its own pages, or comes from the page server. -/
theorem onConnection_sends {P : WebPages} {hostHeader sent : Bytes}
    (hserve : P.serve = fun url => (serve F installPrefix url).response)
    (h : sent ∈ (P.onConnection url hostHeader).1) :
    P.fixed? url hostHeader = some sent ∨ sent = (serve F installPrefix url).response := by
  unfold WebPages.onConnection at h
  cases hfixed : P.fixed? url hostHeader with
  | some own =>
    rw [hfixed] at h
    exact .inl (congrArg some (List.mem_singleton.mp h).symm)
  | none =>
    rw [hfixed] at h
    dsimp only at h
    split_ifs at h
    · cases h
    · cases h
    · rw [hserve] at h
      exact .inr (List.mem_singleton.mp h)

/-- Whatever the URL, the page server looks at nothing outside its directory, and what it sends
besides a 404 is a regular file of the directory. -/
theorem serve_confined (F : FileTree ν) (installPrefix : InstallPrefix) (url : Bytes)
    (hlinks : ∀ b, F.resolve (basePath installPrefix) = some b → F.tree.NoLinks b) :
    (∀ p ∈ (serve F installPrefix url).paths, ∀ m, F.resolve p = some m →
        ∃ b, F.resolve (basePath installPrefix) = some b ∧ F.tree.Below b m) ∧
      ((serve F installPrefix url).response = notFound url ∨
        ∃ b m mimeType content, F.resolve (basePath installPrefix) = some b ∧
          F.tree.Below b m ∧ m ≠ b ∧ F.kind m = .regular content ∧
          (serve F installPrefix url).response = page (ascii "200 OK") mimeType content) := by
  have h := answers_serve F installPrefix url
  refine ⟨fun p hp m hm => ?_, h.response.imp_right ?_⟩
  · obtain ⟨filepath, hconfined, rfl⟩ := h.paths p hp
    obtain ⟨b, hb, -, hbelow⟩ := below_of_confined hlinks hconfined hm
    exact ⟨b, hb, hbelow⟩
  · rintro ⟨filepath, m, content, hconfined, hm, hkind, hpage⟩
    obtain ⟨b, hb, hdir, hbelow⟩ := below_of_confined hlinks hconfined hm
    refine ⟨b, m, getMimeType filepath, content, hb, hbelow, ?_, hkind, hpage⟩
    rintro rfl
    rw [hdir] at hkind
    cases hkind

/-- A site with one page. -/
def oneFile : FileTree (Fin 4) where
  root := 0
  cwd := 0
  parent n := n - 1
  kind n := if n = 3 then .regular (ascii "hello") else .directory
  entry n name :=
    if n = 0 ∧ name = ascii "share" then some (.node 1)
    else if n = 1 ∧ name = ascii "cogserver" then some (.node 2)
    else if n = 2 ∧ name = ascii "index.html" then some (.node 3)
    else none
  readable _ := true
  pathMax := 4096
  maxLinks := 40

/-- The page of a site is sent, and nothing outside is looked at. -/
theorem serve_confined_hello :
    (serve oneFile ⟨[], nofun⟩ (ascii "//?x")).response =
        page (ascii "200 OK") (ascii "text/html") (ascii "hello") ∧
      ∀ p ∈ (serve oneFile ⟨[], nofun⟩ (ascii "//?x")).paths, ∀ m, oneFile.resolve p = some m →
        ∃ b, oneFile.resolve (basePath ⟨[], nofun⟩) = some b ∧ oneFile.tree.Below b m := by
  refine ⟨by decide +kernel, (serve_confined oneFile ⟨[], nofun⟩ (ascii "//?x") ?_).1⟩
  intro b hb d hd n fromRoot target hlink
  simp only [tree, oneFile] at hlink
  split_ifs at hlink <;> cases hlink

end PageServer

end CogServer
