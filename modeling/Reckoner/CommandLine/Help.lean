/-! The fixed texts of the command line. -/
namespace Reckoner.CommandLine

def usage : String :=
  "usage: ppaaee [-h] [-i] [-f PATH] [-s PATH] [-v] [--max-iterations N]\n" ++
  "              [expression]\n"

/-- What is shown when help is asked for. -/
def help : String :=
  usage ++ "\n" ++
  "Calculator and scripting language interpreter.\n" ++
  "\n" ++
  "positional arguments:\n" ++
  "  expression            evaluate one expression and print the result.\n" ++
  "\n" ++
  "options:\n" ++
  "  -h, --help            show this help message and exit\n" ++
  "  -i, --interactive     Start an interactive session.\n" ++
  "  -f PATH, --file PATH  Run a .pc file one line at a time, carrying on past\n" ++
  "                        errors.\n" ++
  "  -s PATH, --script PATH\n" ++
  "                        Run a .pc file as a single program.\n" ++
  "  -v, --verbose         Narrate progress on stderr.\n" ++
  "  --max-iterations N    Give up on any run that performs more than N loop\n" ++
  "                        iterations.\n"

/-- What is shown when there are no arguments at all. -/
def introduction : String :=
  "This is a calculator and small scripting language.\n" ++
  "\n" ++
  usage ++ "\n" ++
  "\n" ++
  "For example:\n" ++
  "\n" ++
  "    ppaaee \"2 + 3 * 4\"\n" ++
  "\n" ++
  "will print 14, while\n" ++
  "\n" ++
  "    ppaaee -i\n" ++
  "\n" ++
  "starts an interactive session, and\n" ++
  "\n" ++
  "    ppaaee -s program.pc\n" ++
  "\n" ++
  "runs a whole program file.\n" ++
  "\n" ++
  "    ppaaee -h\n" ++
  "\n" ++
  "will explain all the arguments.\n"

/-- What is shown for arguments that make no sense. -/
def rejection (message : String) : String := usage ++ "ppaaee: error: " ++ message ++ "\n"

/-- What an interactive session begins with. -/
def greeting : String :=
  "Interactive calculator mode\n" ++
  "Type \"exit()\" or \"quit()\" to exit\n" ++
  "Type \"vars()\" to list all defined variables\n"

def prompt : String := ">>> "

end Reckoner.CommandLine
