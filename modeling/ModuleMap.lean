import ModuleMap.Main
import ModuleMap.Proofs.Mapping.Key
import ModuleMap.Proofs.Mapping.Selection
import ModuleMap.Proofs.Tsconfig.Inheritance
import ModuleMap.Proofs.Tsconfig.Traversal
import ModuleMap.Proofs.Tsconfig.Extended
import ModuleMap.Proofs.FileTree.Spelling
import ModuleMap.Proofs.Scope.Coherence
import ModuleMap.Proofs.Command.Classification
import ModuleMap.Proofs.Tsconfig.ModuleTypes
import ModuleMap.Proofs.FileTree.Files
import ModuleMap.Proofs.Tsconfig.Cycles
import ModuleMap.Proofs.Json.Grammar
import ModuleMap.Proofs.Json.TrailingCommas
import ModuleMap.Proofs.Json.Lexing
import ModuleMap.Proofs.Jsonc.Decoration
import ModuleMap.Proofs.FileTree.Alike
import ModuleMap.Proofs.Text.Utf8
import ModuleMap.Proofs.Tsconfig.Decorated
import ModuleMap.Proofs.Scope.Footprint
import ModuleMap.Proofs.Scope.Session
import ModuleMap.Proofs.Path.Ancestors
import ModuleMap.Proofs.Tsconfig.Nearest
import ModuleMap.Proofs.Glob.Anchoring
import ModuleMap.Proofs.Path.Text
import ModuleMap.Proofs.Override.Relocation
import ModuleMap.Proofs.Path.NormalForm
import ModuleMap.Proofs.Path.Joining
import ModuleMap.Proofs.Tsconfig.Candidates
import ModuleMap.Proofs.FileTree.NewFile
import ModuleMap.Proofs.Format.Precedence
import ModuleMap.Proofs.Override.Absolute
import ModuleMap.Proofs.Tsconfig.Probes
import ModuleMap.Proofs.Command.Creation
import ModuleMap.Proofs.Mapping.Reordering
import ModuleMap.Proofs.Override.Containment
import ModuleMap.Proofs.Text.WellFormed
import ModuleMap.Proofs.Json.Scanning
import ModuleMap.Proofs.Json.Forms
import ModuleMap.Proofs.Json.Skipping
import ModuleMap.Proofs.Json.Reading
import ModuleMap.Proofs.Jsonc.Literals
import ModuleMap.Proofs.Jsonc.Chunks
import ModuleMap.Proofs.Jsonc.Blanking
import ModuleMap.Proofs.Jsonc.Forgiving
import ModuleMap.Proofs.Tsconfig.Leniency
import ModuleMap.Proofs.Path.Settling
import ModuleMap.Proofs.Path.Composition
import ModuleMap.Proofs.Path.Below
import ModuleMap.Proofs.Format.Spelling
import ModuleMap.Proofs.Override.Literal
import ModuleMap.Proofs.Mapping.Filling
import ModuleMap.Proofs.Mapping.Compilation
import ModuleMap.Proofs.Tsconfig.Packages
import ModuleMap.Proofs.Scope.Transparency
import ModuleMap.Proofs.Scope.Recording
import ModuleMap.Proofs.Jsonc.KeptParts
import ModuleMap.Proofs.Jsonc.Lines
import ModuleMap.Proofs.Json.FaultLines
import ModuleMap.Proofs.Json.Stopping
import ModuleMap.Proofs.Tsconfig.FaultLines
