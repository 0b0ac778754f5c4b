import ModuleMap.FileTree.Read

/-!
# Finding configs

* `configName`, `FileTree.nearestConfig?`: the `tsconfig.json` nearest above a directory.
* `FileTree.extended`: the config that an `extends` value names.  A value that is absolute or starts
  with `./` or `../` names a file; any other is looked up in the `node_modules` directories above
  the config, where a directory stands for the `tsconfig.json` in it.
-/

namespace ModuleMap

/-- The file name of configs. -/
def configName : Path := .ofText "tsconfig.json"

/-- The name of the directories that packages are looked up in. -/
def packagesName : Path := .ofText "node_modules"

/-- The extension of configs. -/
def jsonExtension : Segment := Text.encode "json".toList

namespace FileTree

/-- The config nearest above a directory: in it, in its parent, and so on. -/
def nearestConfig? (t : FileTree) (directory : Path) : Option Path :=
  directory.nearest? fun d =>
    if t.isFile (d.join configName) then some (d.join configName) else none

/-- The path, with `.json` added unless it is a file or has that extension already. -/
def withJson (t : FileTree) (p : Path) : Path :=
  if t.isFile p || p.extension? = some jsonExtension then p else p.addSuffix ".json"

/-- Whether an `extends` value is a path of its own. -/
def isPathValue (value : String) : Bool :=
  "./".toList.isPrefixOf value.toList || "../".toList.isPrefixOf value.toList ||
    (Path.ofText value).isAbsolute

/-- The config for a package name in the `node_modules` directory of `directory`, if it is there. -/
def packageConfig? (t : FileTree) (value : String) (directory : Path) : Option Path :=
  let candidate := (directory.join packagesName).join (.ofText value)
  if t.isDirectory candidate then some (candidate.join configName)
  else
    let file := t.withJson candidate
    if t.isFile file then some file else none

/-- The config that an `extends` value of a config in `directory` names.  A package that is nowhere
is taken to be missing from the directory itself. -/
def extended (t : FileTree) (directory : Path) (value : String) : Path :=
  if isPathValue value then t.withJson (directory.join (.ofText value)).normalize
  else
    (directory.nearest? (t.packageConfig? value)).getD
      ((directory.join packagesName).join (.ofText value))

end FileTree

end ModuleMap
