import Bindery.Command.Run
import Bindery.Fault.Console
import Bindery.Repository.WorkTree
import Std.Time

/-!
# The program

Commands work on a file tree, so the program reads the directories that a command may touch into one,
runs the command, and writes back what the command changed.
-/

namespace Bindery.Program

open Text (bytes)

/-- A text as a string for the system. -/
def shown (s : Bytes) : String := (Text.toString? s).getD ""

/-- The bytes of a file as a text. -/
def ofBuffer (b : ByteArray) : Bytes := b.data.toList

/-- A text as the bytes of a file. -/
def toBuffer (s : Bytes) : ByteArray := ⟨s.toArray⟩

/-! ## Reading files -/

/-- How deep directories are read. -/
def depthLimit : Nat := 40

def place (tree : FileTree) (path content : Bytes) : FileTree :=
  ((tree.makeDirectory (Path.dir path)).bind fun t => t.write path content).toOption.getD tree

/-- Reads a file into a tree, if it can be read. -/
def readFile (tree : FileTree) (path : Bytes) : IO FileTree := do
  try return place tree path (ofBuffer (← IO.FS.readBinFile (shown path)))
  catch _ => return tree

/-- Reads a file, or a directory with what it holds. The records of version control are left out. -/
def readTree (path : Bytes) : Nat → FileTree → IO FileTree
  | 0, tree => return tree
  | depth + 1, tree => do
    let here := (← IO.currentDir) / shown path
    if ← here.isDir then
      let mut tree := (tree.makeDirectory path).toOption.getD tree
      for entry in ← here.readDir do
        let name := bytes entry.fileName
        if name != Repository.WorkTree.recordsName then
          tree ← readTree (Path.join [path, name]) depth tree
      return tree
    else readFile tree path

/-- Reads the records of version control that tell which commit is checked out. -/
def readRecords (tree : FileTree) (dir : Bytes) : IO FileTree := do
  let mut tree := tree
  for root in Repository.WorkTree.enclosing tree dir do
    let path := Path.join [root, Repository.WorkTree.recordsName]
    let here := (← IO.currentDir) / shown path
    if ← here.isDir then
      for name in ["HEAD", "config", "packed-refs"] do
        tree ← readFile tree (Path.join [path, bytes name])
      tree ← readTree (Path.join [path, bytes "refs"]) depthLimit tree
      match Repository.WorkTree.head? tree path with
      | some commit => tree ← readFile tree (Path.join [path, Repository.WorkTree.objectFile commit])
      | none => pure ()
      return tree
    else tree ← readFile tree path
  return tree

/-- The paths that a command may touch besides the working directory. -/
def concerns (c : CommandLine) (config : Config) : List Bytes :=
  let input :=
    match c.task with
    | .build input _ _ | .tree input _ _ _ | .watch input _ _ => input
    | _ => []
  let output :=
    match c.task with
    | .build _ output _ | .watch _ output _ | .init output _ => output
    | _ => []
  let config := config.withInput input
  let key := (config.fetching.credentials.map (·.keyPath)).getD []
  let keys := if key.isEmpty then [] else [key]
  [config.root, Path.dir config.input, config.output, output, config.workspace.dir,
    Path.dir config.metricsFile].filter (!·.isEmpty) ++ keys

/-- The files that a command may touch. -/
def readFiles (env : Environment) (cwd : Bytes) (c : CommandLine) : IO FileTree := do
  let mut tree : FileTree := { cwd }
  tree := (tree.makeDirectory cwd).toOption.getD tree
  tree ← readTree cwd depthLimit tree
  if !c.config.isEmpty then tree ← readFile tree c.config
  match Config.load tree (Config.loadEnvironment tree env) c.config with
  | .error _ => return tree
  | .ok config =>
    for path in (concerns c config).map (Path.absolute cwd) do
      if !Path.contains cwd path then tree ← readTree path depthLimit tree
    readRecords tree (if config.root.isEmpty then cwd else config.root)

/-! ## Writing files -/

/-- Writes what a command changed. -/
def writeBack (before after : FileTree) : IO Unit := do
  -- What is gone, or has become something else, is removed first.
  for (parts, entry) in before.entries.reverse do
    if after.entries.lookup parts != some entry then
      let here := (← IO.currentDir) / shown (47 :: FileTree.pathOf parts)
      try
        match entry with
        | .file _ => IO.FS.removeFile here
        | .directory => if (after.entries.lookup parts).isNone then IO.FS.removeDirAll here
      catch _ => pure ()
  -- In ascending order a directory comes before what it holds.
  for (parts, entry) in after.entries.mergeSort fun a b => a.1 ≤ b.1 do
    if before.entries.lookup parts != some entry then
      let path := shown (47 :: FileTree.pathOf parts)
      match entry with
      | .directory => IO.FS.createDirAll path
      | .file content => IO.FS.writeBinFile path (toBuffer content)

/-! ## Surroundings -/

/-- The variables of the environment that settings may use. -/
def readEnvironment (names : List Bytes) : IO Environment := do
  let mut env : Environment := []
  for name in names do
    if let some value ← IO.getEnv (shown name) then env := env ++ [(name, bytes value)]
  return env

/-- The names of variables that a text mentions. -/
def mentioned (text : Bytes) : List Bytes :=
  ((Text.splitOn 36 text).drop 1).map fun s =>
    let s := Text.withoutStart [123] s
    s.takeWhile Text.isWord

/-- A random identifier for a build. -/
def newId : IO Bytes := do
  let digits := Digest.hexText (ofBuffer (← IO.getRandomBytes 16))
  let part (start length : Nat) : Bytes := (digits.drop start).take length
  return Text.joinWith "-" [part 0 8, part 8 4, bytes "4" ++ part 13 3, bytes "a" ++ part 17 3, part 20 12]

def now : IO Moment := do
  let stamp ← Std.Time.Timestamp.now
  return { seconds := stamp.toSecondsSinceUnixEpoch.val }

/-- No version control program is at hand, so that no repository is found. -/
def noClone : Repository.Cloner := .ofProgram
  { clone := fun _ => .error (.plain "repository not found")
    head := fun _ => .error (.plain "reference not found") }

/-! ## Running -/

/-- An order in which passes take turns. -/
def newSchedule : IO (List Nat) := (List.range 1000).mapM fun _ => IO.rand 0 9

/-- Runs a command line once: what it prints, or why it failed. -/
def runOnce (env : Environment) (cwd : Bytes) (c : CommandLine) : IO (Except Fault Bytes) := do
  let before ← readFiles env cwd c
  let host : Host :=
    { environment := env, id := ← newId, now := ← now, clone := noClone, schedule := ← newSchedule
      checkout := fun dir => .ofSearch (Repository.WorkTree.detect before dir) }
  let (result, world) := (c.run host).run { tree := before }
  writeBack before world.tree
  return result

/-- Shows a result and returns the exit code. -/
def report (c : CommandLine) (result : Except Fault Bytes) : IO UInt32 := do
  match result with
  | .ok output =>
    (← IO.getStdout).write (toBuffer output)
    return 0
  | .error fault =>
    (← IO.getStderr).write (toBuffer (fault.display c.verbose ++ bytes "\n"))
    return fault.exitCode.toUInt32

/-- The watched files that count. -/
def watchedFiles (w : Watch) : IO (List (List Bytes × FileEntry)) := do
  let tree ← readTree w.root depthLimit { cwd := w.root }
  return tree.entries.filter fun (parts, _) =>
    let path := 47 :: FileTree.pathOf parts
    !Watch.isIgnored path && !w.isExcluded path

/-- Builds again whenever the watched files change and are quiet again. -/
partial def watchOn (env : Environment) (cwd : Bytes) (c : CommandLine) (w : Watch)
    (seen : List (List Bytes × FileEntry)) : IO UInt32 := do
  IO.sleep (w.debounce / 1000000).toNat.toUInt32
  let files ← watchedFiles w
  if files == seen then watchOn env cwd c w seen
  else
    IO.sleep (w.debounce / 1000000).toNat.toUInt32
    let quiet ← watchedFiles w
    if quiet == files then let _ ← report c (← runOnce env cwd c)
    watchOn env cwd c w quiet

/-- What is watched on behalf of a command line. -/
def watchFor (env : Environment) (cwd : Bytes) (c : CommandLine) : IO (Option Watch) := do
  match c.task with
  | .watch input output debounce =>
    let tree ← readFiles env cwd c
    match Config.load tree (Config.loadEnvironment tree env) c.config with
    | .error _ => return none
    | .ok config =>
      let config := Command.overridden config input output false
      return some (Command.watchOf cwd config debounce)
  | _ => return none

/-- Runs the program. -/
def run (args : List String) : IO UInt32 := do
  let cwd := bytes (← IO.currentDir).toString
  let home := bytes ((← IO.getEnv "HOME").getD "/")
  match CommandLine.parse? cwd home (args.map bytes) with
  | none =>
    (← IO.getStderr).write (toBuffer Command.usage)
    return 80
  | some c =>
    let config := if c.config.isEmpty then Config.standardFile else c.config
    let file ← readFile { cwd } (Path.absolute cwd config)
    let text := (file.read (Path.absolute cwd config)).toOption.getD []
    let env ← readEnvironment (bytes "BOOKBUILDER_LOG_LEVEL" :: mentioned text)
    let code ← report c (← runOnce env cwd c)
    match ← watchFor env cwd c with
    | some w => if code == 0 then watchOn env cwd c w (← watchedFiles w) else return code
    | none => return code

end Bindery.Program

def main (args : List String) : IO UInt32 := Bindery.Program.run args
