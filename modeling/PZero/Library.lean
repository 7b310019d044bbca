import PZero.IR.Module

namespace PZero.Library

def printBool : Bytes := ascii "_print_bool"

def printInt : Bytes := ascii "_print_int"

def printString : Bytes := ascii "_print_string"

def printFloat : Bytes := ascii "_print_float"

def printLn : Bytes := ascii "_print_ln"

def externals : List IR.External :=
  [⟨printBool, [.int 8], .void⟩,
    ⟨printInt, [.int 32], .void⟩,
    ⟨printString, [.ptr (.int 8)], .void⟩,
    ⟨printFloat, [.float .single], .void⟩,
    ⟨printLn, [], .void⟩]

def names : List Bytes := externals.map (·.name)

def find? (name : Bytes) : Option IR.External := externals.find? (·.name = name)

def fileName : Bytes := ascii "p0lib.c"

def source : Bytes := ascii
  "#include <stdio.h>

void _print_string(char *s) \x7b
  printf(\"%s\", s);
\x7d

void _print_ln() \x7b
  printf(\"\\n\");
\x7d

void _print_int(int v) \x7b
  printf(\"%d\", v);
\x7d

void _print_bool(char v) \x7b
  if (v == 1) printf(\"true\"); else printf(\"false\");
\x7d

void _print_float(float v) \x7b
  printf(\"%f\", v);
\x7d
"

end PZero.Library
