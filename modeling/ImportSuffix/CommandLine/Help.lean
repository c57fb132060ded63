/-!
What the program says about itself when it is asked to.
-/

namespace ImportSuffix.CommandLine

def programName : String := "add-js-import"

def versionText : String := programName ++ " 0.1.0"

def helpText : String := "\n".intercalate
  ["add-js-import: append explicit .js extensions to relative imports in index.ts entry files",
    "",
    "Usage: add-js-import [OPTIONS] [TARGET_DIR]",
    "",
    "Arguments:",
    "  [TARGET_DIR]  Directory to scan. Defaults to `packages` in the working directory",
    "",
    "Options:",
    "  -e, --exclude-dirs <NAME>...  Directory names to skip at any depth",
    "      --file-name <FILE_NAME>   Name of the entry files to rewrite [default: index.ts]",
    "      --extension <EXTENSION>   Extension appended to relative specifiers [default: .js]",
    "      --dry-run                 Report files that would change without writing them",
    "  -v, --verbose...              Increase logging verbosity (`-v`, `-vv`, `-vvv`)",
    "  -h, --help                    Print help",
    "  -V, --version                 Print version"]

end ImportSuffix.CommandLine
