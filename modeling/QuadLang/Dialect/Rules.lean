/-
The grammars of the two dialects.

Each rule has a left side, a right side and the step that is done when the rule
is complete.  Symbols in quotes are characters that are tokens by themselves.
Many rules have the empty text as their right side: they mark places in the
other rules where something has to be done before going on.
-/
import QuadLang.Compile.Step
import QuadLang.Grammar.Tables

namespace QuadLang

structure DialectRule where
  name : String
  symbols : List String
  step : Step
deriving Repr, DecidableEq

namespace Dialect

def rules : Dialect → List DialectRule
  | .plain => [
    ⟨"program", ["PROGRAM", "ID", "found_program_name", "';'", "vars", "functions", "main",
      "body"], .finish⟩,
    ⟨"found_program_name", ["empty"], .begin⟩,
    ⟨"vars", ["VAR", "found_var", "var_declare"], .skip⟩,
    ⟨"vars", ["empty"], .skip⟩,
    ⟨"found_var", ["empty"], .openTable⟩,
    ⟨"var_declare", ["type", "var_name", "';'", "var_declare"], .skip⟩,
    ⟨"var_declare", ["type", "var_name", "';'"], .skip⟩,
    ⟨"var_name", ["variable_declare", "var_dims", "','", "var_name"], .skip⟩,
    ⟨"var_name", ["variable_declare", "var_dims"], .skip⟩,
    ⟨"variable_declare", ["ID"], .declare⟩,
    ⟨"var_dims", ["empty"], .skip⟩,
    ⟨"var_dims", ["dim", "dim"], .reserve⟩,
    ⟨"var_dims", ["dim"], .reserve⟩,
    ⟨"type", ["INT"], .setType⟩,
    ⟨"type", ["FLOAT"], .setType⟩,
    ⟨"type", ["CHAR"], .setType⟩,
    ⟨"type", ["BOOL"], .setType⟩,
    ⟨"functions", ["FUNCTION", "func_type", "ID", "found_func_name", "func_dims", "'('",
      "func_params", "')'", "vars", "found_func_start", "body", "found_func_end", "functions"],
      .skip⟩,
    ⟨"functions", ["empty"], .skip⟩,
    ⟨"func_type", ["type"], .skip⟩,
    ⟨"func_type", ["VOID"], .setVoid⟩,
    ⟨"found_func_name", ["empty"], .beginFunction⟩,
    ⟨"func_dims", ["empty"], .skip⟩,
    ⟨"func_dims", ["dim", "dim"], .returnDims⟩,
    ⟨"func_dims", ["dim"], .returnDims⟩,
    ⟨"dim", ["'['", "CTE_INT", "']'"], .size 1 false⟩,
    ⟨"func_params", ["func_param"], .skip⟩,
    ⟨"func_params", ["empty"], .skip⟩,
    ⟨"func_param", ["type", "ID", "found_func_param", "param_dims", "','", "func_param"], .skip⟩,
    ⟨"func_param", ["type", "ID", "found_func_param", "param_dims"], .skip⟩,
    ⟨"found_func_param", ["empty"], .param⟩,
    ⟨"param_dims", ["empty"], .skip⟩,
    ⟨"param_dims", ["dim", "dim"], .paramDims⟩,
    ⟨"param_dims", ["dim"], .paramDims⟩,
    ⟨"found_func_start", ["empty"], .markStart⟩,
    ⟨"found_func_end", ["empty"], .endFunction⟩,
    ⟨"main", ["MAIN", "'('", "')'"], .beginMain⟩,
    ⟨"body", ["'\x7b'", "statements", "'\x7d'"], .skip⟩,
    ⟨"statements", ["statement", "statements"], .skip⟩,
    ⟨"statements", ["empty"], .skip⟩,
    ⟨"statement", ["assignment"], .skip⟩,
    ⟨"statement", ["call_func"], .skip⟩,
    ⟨"statement", ["return"], .skip⟩,
    ⟨"statement", ["read"], .skip⟩,
    ⟨"statement", ["print"], .skip⟩,
    ⟨"statement", ["if"], .skip⟩,
    ⟨"statement", ["from"], .skip⟩,
    ⟨"statement", ["while"], .skip⟩,
    ⟨"statement", ["break"], .skip⟩,
    ⟨"statement", ["empty"], .skip⟩,
    ⟨"assignment", ["expr_var", "'='", "found_expr_duo_op", "expr", "found_assignment_end",
      "';'"], .skip⟩,
    ⟨"found_assignment_end", ["empty"], .assign⟩,
    ⟨"return", ["RETURN", "'('", "expr", "')'", "';'"], .ret⟩,
    ⟨"read", ["READ", "'('", "read_params", "')'", "';'"], .skip⟩,
    ⟨"read_params", ["expr_var", "found_read_param", "','", "read_params"], .skip⟩,
    ⟨"read_params", ["expr_var", "found_read_param"], .skip⟩,
    ⟨"found_read_param", ["empty"], .read⟩,
    ⟨"print", ["PRINT", "'('", "print_params", "')'", "';'"], .skip⟩,
    ⟨"print_params", ["print_param", "','", "print_params"], .skip⟩,
    ⟨"print_params", ["print_param"], .skip⟩,
    ⟨"print_param", ["expr"], .printValue⟩,
    ⟨"print_param", ["STRING"], .printText⟩,
    ⟨"if", ["IF", "'('", "expr", "')'", "found_if_expr", "THEN", "body"], .endIf⟩,
    ⟨"if", ["IF", "'('", "expr", "')'", "found_if_expr", "THEN", "body", "else"], .endIf⟩,
    ⟨"found_if_expr", ["empty"], .jumpIfFalse⟩,
    ⟨"else", ["ELSE", "found_else", "body"], .skip⟩,
    ⟨"found_else", ["empty"], .orElse⟩,
    ⟨"from", ["FROM", "'('", "ID", "found_from_iterator", "'='", "expr", "found_from_start",
      "TO", "expr", "')'", "found_from_cond", "DO", "body"], .loopEnd⟩,
    ⟨"found_from_iterator", ["empty"], .iterator⟩,
    ⟨"found_from_start", ["empty"], .loopStart⟩,
    ⟨"found_from_cond", ["empty"], .loopBound⟩,
    ⟨"while", ["WHILE", "found_while", "'('", "expr", "')'", "found_while_expr", "DO", "body"],
      .endLoop⟩,
    ⟨"found_while", ["empty"], .beginLoop⟩,
    ⟨"found_while_expr", ["empty"], .jumpIfFalse⟩,
    ⟨"break", ["BREAK", "';'"], .leave⟩,
    ⟨"expr", ["expr_logic"], .skip⟩,
    ⟨"expr_logic", ["expr_compare", "found_expr_logic", "expr_logic2"], .skip⟩,
    ⟨"found_expr_logic", ["empty"], .operation ["&", "|"]⟩,
    ⟨"expr_logic2", ["'&'", "found_expr_duo_op", "expr_logic"], .skip⟩,
    ⟨"expr_logic2", ["'|'", "found_expr_duo_op", "expr_logic"], .skip⟩,
    ⟨"expr_logic2", ["empty"], .skip⟩,
    ⟨"expr_compare", ["expr_arith", "found_expr_compare", "expr_compare2"], .skip⟩,
    ⟨"found_expr_compare", ["empty"], .operation ["==", "!=", "<", "<=", ">", ">="]⟩,
    ⟨"expr_compare2", ["IS_EQUAL", "found_expr_duo_op", "expr_compare"], .skip⟩,
    ⟨"expr_compare2", ["IS_NOT_EQUAL", "found_expr_duo_op", "expr_compare"], .skip⟩,
    ⟨"expr_compare2", ["'<'", "found_expr_duo_op", "expr_compare"], .skip⟩,
    ⟨"expr_compare2", ["LESS_THAN_OR_EQUAL", "found_expr_duo_op", "expr_compare"], .skip⟩,
    ⟨"expr_compare2", ["'>'", "found_expr_duo_op", "expr_compare"], .skip⟩,
    ⟨"expr_compare2", ["MORE_THAN_OR_EQUAL", "found_expr_duo_op", "expr_compare"], .skip⟩,
    ⟨"expr_compare2", ["empty"], .skip⟩,
    ⟨"expr_arith", ["expr_factor", "found_expr_arith", "expr_arith2"], .skip⟩,
    ⟨"found_expr_arith", ["empty"], .operation ["+", "-"]⟩,
    ⟨"expr_arith2", ["'+'", "found_expr_duo_op", "expr_arith"], .skip⟩,
    ⟨"expr_arith2", ["'-'", "found_expr_duo_op", "expr_arith"], .skip⟩,
    ⟨"expr_arith2", ["empty"], .skip⟩,
    ⟨"expr_factor", ["expr_mono", "found_expr_factor", "expr_factor2"], .skip⟩,
    ⟨"found_expr_factor", ["empty"], .operation ["*", "/", "%", "."]⟩,
    ⟨"expr_factor2", ["'*'", "found_expr_duo_op", "expr_factor"], .skip⟩,
    ⟨"expr_factor2", ["'/'", "found_expr_duo_op", "expr_factor"], .skip⟩,
    ⟨"expr_factor2", ["'%'", "found_expr_duo_op", "expr_factor"], .skip⟩,
    ⟨"expr_factor2", ["'.'", "found_expr_duo_op", "expr_factor"], .skip⟩,
    ⟨"expr_factor2", ["empty"], .skip⟩,
    ⟨"found_expr_duo_op", ["empty"], .pushOperator⟩,
    ⟨"expr_mono", ["expr_atom", "expr_mono_op"], .skip⟩,
    ⟨"expr_mono_op", ["'!'", "found_expr_mono_op", "expr_mono_op"], .skip⟩,
    ⟨"expr_mono_op", ["'$'", "found_expr_mono_op", "expr_mono_op"], .skip⟩,
    ⟨"expr_mono_op", ["'?'", "found_expr_mono_op", "expr_mono_op"], .skip⟩,
    ⟨"expr_mono_op", ["empty"], .skip⟩,
    ⟨"found_expr_mono_op", ["empty"], .matrixOperation⟩,
    ⟨"expr_atom", ["expr_group"], .skip⟩,
    ⟨"expr_atom", ["expr_call_func"], .skip⟩,
    ⟨"expr_atom", ["expr_var"], .skip⟩,
    ⟨"expr_group", ["'('", "found_expr_duo_op", "expr", "')'"], .closeGroup⟩,
    ⟨"expr_var", ["expr_var_name", "expr_var_dims"], .skip⟩,
    ⟨"expr_var_name", ["ID"], .pushVariable⟩,
    ⟨"expr_var_dims", ["empty"], .skip⟩,
    ⟨"expr_var_dims", ["found_expr_var_dims", "expr_var_dim", "expr_var_dim"], .endAccess⟩,
    ⟨"expr_var_dims", ["found_expr_var_dims", "expr_var_dim"], .endAccess⟩,
    ⟨"found_expr_var_dims", ["empty"], .beginAccess⟩,
    ⟨"expr_var_dim", ["'['", "expr_var_open_dim", "expr", "']'"], .closeIndex⟩,
    ⟨"expr_var_open_dim", ["empty"], .openIndex⟩,
    ⟨"expr_var", ["CTE_INT"], .constant⟩,
    ⟨"expr_var", ["CTE_FLOAT"], .constant⟩,
    ⟨"expr_var", ["CTE_BOOL"], .constant⟩,
    ⟨"expr_var", ["CTE_CHAR"], .constant⟩,
    ⟨"expr_call_func", ["ID", "found_call_func_name", "'('", "call_func_params", "')'",
      "found_call_func_end"], .callResult⟩,
    ⟨"call_func", ["ID", "found_call_func_name", "'('", "call_func_params", "')'",
      "found_call_func_end", "';'"], .callStatement⟩,
    ⟨"found_call_func_name", ["empty"], .beginCall⟩,
    ⟨"call_func_params", ["call_func_param"], .skip⟩,
    ⟨"call_func_params", ["empty"], .skip⟩,
    ⟨"call_func_param", ["expr", "func_single_step", "','", "call_func_param"], .skip⟩,
    ⟨"call_func_param", ["expr", "func_single_step"], .skip⟩,
    ⟨"func_single_step", ["empty"], .argument⟩,
    ⟨"found_call_func_end", ["empty"], .endCall⟩,
    ⟨"empty", [], .skip⟩]
  | .goose => [
    ⟨"program", ["UNTITLED", "ID", "GAME", "found_program_name", "HONK", "vars", "functions",
      "main", "body"], .finish⟩,
    ⟨"found_program_name", ["empty"], .begin⟩,
    ⟨"vars", ["POND", "found_var", "var_declare"], .skip⟩,
    ⟨"vars", ["empty"], .skip⟩,
    ⟨"found_var", ["empty"], .openTable⟩,
    ⟨"var_declare", ["type", "var_name", "HONK", "var_declare"], .skip⟩,
    ⟨"var_declare", ["type", "var_name", "HONK"], .skip⟩,
    ⟨"var_name", ["variable_declare", "var_dims", "MOAR", "var_name"], .skip⟩,
    ⟨"var_name", ["variable_declare", "var_dims"], .skip⟩,
    ⟨"variable_declare", ["ID"], .declare⟩,
    ⟨"var_dims", ["empty"], .skip⟩,
    ⟨"var_dims", ["dim", "dim"], .reserve⟩,
    ⟨"var_dims", ["dim"], .reserve⟩,
    ⟨"type", ["type_int"], .setType⟩,
    ⟨"type", ["type_float"], .setType⟩,
    ⟨"type", ["type_char"], .setType⟩,
    ⟨"type", ["type_bool"], .setType⟩,
    ⟨"type_int", ["WHOLE", "GOOSE"], .give "int"⟩,
    ⟨"type_float", ["PART", "GOOSE"], .give "float"⟩,
    ⟨"type_char", ["LETTER", "GOOSE"], .give "char"⟩,
    ⟨"type_bool", ["DUCK", "OR", "GOOSE"], .give "bool"⟩,
    ⟨"functions", ["TASK", "func_type", "ID", "found_func_name", "func_dims", "HONK",
      "func_params", "HONK", "vars", "found_func_start", "body", "found_func_end", "functions"],
      .skip⟩,
    ⟨"functions", ["empty"], .skip⟩,
    ⟨"func_type", ["type"], .skip⟩,
    ⟨"func_type", ["MY", "SOUL"], .setVoid⟩,
    ⟨"found_func_name", ["empty"], .beginFunction⟩,
    ⟨"func_dims", ["empty"], .skip⟩,
    ⟨"func_dims", ["dim", "dim"], .returnDims⟩,
    ⟨"func_dims", ["dim"], .returnDims⟩,
    ⟨"dim", ["OPEN", "BOX", "CTE_INT", "CLOSE", "BOX"], .size 2 true⟩,
    ⟨"func_params", ["func_param"], .skip⟩,
    ⟨"func_params", ["empty"], .skip⟩,
    ⟨"func_param", ["type", "ID", "found_func_param", "param_dims", "MOAR", "func_param"], .skip⟩,
    ⟨"func_param", ["type", "ID", "found_func_param", "param_dims"], .skip⟩,
    ⟨"found_func_param", ["empty"], .param⟩,
    ⟨"param_dims", ["empty"], .skip⟩,
    ⟨"param_dims", ["dim", "dim"], .paramDims⟩,
    ⟨"param_dims", ["dim"], .paramDims⟩,
    ⟨"found_func_start", ["empty"], .markStart⟩,
    ⟨"found_func_end", ["empty"], .endFunction⟩,
    ⟨"main", ["PRESS", "Y", "TO", "HONK_LOWERCASE"], .beginMain⟩,
    ⟨"body", ["OPEN", "FANCY", "GATE", "statements", "CLOSE", "FANCY", "GATE"], .skip⟩,
    ⟨"statements", ["statement", "statements"], .skip⟩,
    ⟨"statements", ["empty"], .skip⟩,
    ⟨"statement", ["assignment"], .skip⟩,
    ⟨"statement", ["call_func"], .skip⟩,
    ⟨"statement", ["return"], .skip⟩,
    ⟨"statement", ["read"], .skip⟩,
    ⟨"statement", ["print"], .skip⟩,
    ⟨"statement", ["if"], .skip⟩,
    ⟨"statement", ["from"], .skip⟩,
    ⟨"statement", ["while"], .skip⟩,
    ⟨"statement", ["break"], .skip⟩,
    ⟨"statement", ["empty"], .skip⟩,
    ⟨"assignment", ["expr_var", "AM", "found_assignment_op", "found_expr_duo_op", "expr",
      "found_assignment_end", "HONK"], .skip⟩,
    ⟨"found_assignment_op", ["empty"], .give "="⟩,
    ⟨"found_assignment_end", ["empty"], .assign⟩,
    ⟨"return", ["GOT", "BELL", "expr", "HONK"], .ret⟩,
    ⟨"read", ["HO", "'-'", "read_params", "'-'", "ONK", "HONK"], .skip⟩,
    ⟨"read_params", ["expr_var", "found_read_param", "MOAR", "read_params"], .skip⟩,
    ⟨"read_params", ["expr_var", "found_read_param"], .skip⟩,
    ⟨"found_read_param", ["empty"], .read⟩,
    ⟨"print", ["SHOW", "ON", "TV", "print_params", "HONK"], .skip⟩,
    ⟨"print_params", ["print_param", "MOAR", "print_params"], .skip⟩,
    ⟨"print_params", ["print_param"], .skip⟩,
    ⟨"print_param", ["expr"], .printValue⟩,
    ⟨"print_param", ["STRING"], .printText⟩,
    ⟨"if", ["HONK", "'?'", "expr", "found_if_expr", "HONK", "'!'", "body"], .endIf⟩,
    ⟨"if", ["HONK", "'?'", "expr", "found_if_expr", "HONK", "'!'", "body", "else"], .endIf⟩,
    ⟨"found_if_expr", ["empty"], .jumpIfFalse⟩,
    ⟨"else", ["BONK", "found_else", "body"], .skip⟩,
    ⟨"found_else", ["empty"], .orElse⟩,
    ⟨"from", ["INHALES", "ID", "found_from_iterator", "AM", "expr", "found_from_start",
      "HOOOONK", "expr", "found_from_cond", "HOONK", "body"], .loopEnd⟩,
    ⟨"found_from_iterator", ["empty"], .iterator⟩,
    ⟨"found_from_start", ["empty"], .loopStart⟩,
    ⟨"found_from_cond", ["empty"], .loopBound⟩,
    ⟨"while", ["HONK", "HONK", "found_while", "expr", "found_while_expr", "HOONK", "body"],
      .endLoop⟩,
    ⟨"found_while", ["empty"], .beginLoop⟩,
    ⟨"found_while_expr", ["empty"], .jumpIfFalse⟩,
    ⟨"break", ["PEACE", "WAS", "NEVER", "AN", "OPTION", "HONK"], .leave⟩,
    ⟨"expr", ["expr_logic"], .skip⟩,
    ⟨"expr_logic", ["expr_compare", "found_expr_logic", "expr_logic2"], .skip⟩,
    ⟨"found_expr_logic", ["empty"], .operation ["&", "|"]⟩,
    ⟨"expr_logic2", ["and_op", "found_expr_duo_op", "expr_logic"], .skip⟩,
    ⟨"expr_logic2", ["or_op", "found_expr_duo_op", "expr_logic"], .skip⟩,
    ⟨"expr_logic2", ["empty"], .skip⟩,
    ⟨"and_op", ["TOGETHER", "FOREVER"], .give "&"⟩,
    ⟨"or_op", ["POLE"], .give "|"⟩,
    ⟨"expr_compare", ["expr_arith", "found_expr_compare", "expr_compare2"], .skip⟩,
    ⟨"found_expr_compare", ["empty"], .operation ["==", "!=", "<", "<=", ">", ">="]⟩,
    ⟨"expr_compare2", ["eq_op", "found_expr_duo_op", "expr_compare"], .skip⟩,
    ⟨"expr_compare2", ["noeq_op", "found_expr_duo_op", "expr_compare"], .skip⟩,
    ⟨"expr_compare2", ["less_op", "found_expr_duo_op", "expr_compare"], .skip⟩,
    ⟨"expr_compare2", ["lesseq_op", "found_expr_duo_op", "expr_compare"], .skip⟩,
    ⟨"expr_compare2", ["more_op", "found_expr_duo_op", "expr_compare"], .skip⟩,
    ⟨"expr_compare2", ["moreeq_op", "found_expr_duo_op", "expr_compare"], .skip⟩,
    ⟨"expr_compare2", ["empty"], .skip⟩,
    ⟨"eq_op", ["AM", "GOOSE", "'?'"], .give "=="⟩,
    ⟨"noeq_op", ["NOT", "GOOSE", "'?'", "'!'"], .give "!="⟩,
    ⟨"less_op", ["INFERIOR"], .give "<"⟩,
    ⟨"lesseq_op", ["INFERIOR", "MAYBE"], .give "<="⟩,
    ⟨"more_op", ["SUPERIOR"], .give ">"⟩,
    ⟨"moreeq_op", ["SUPERIOR", "MAYBE"], .give ">="⟩,
    ⟨"expr_arith", ["expr_factor", "found_expr_arith", "expr_arith2"], .skip⟩,
    ⟨"found_expr_arith", ["empty"], .operation ["+", "-"]⟩,
    ⟨"expr_arith2", ["plus_op", "found_expr_duo_op", "expr_arith"], .skip⟩,
    ⟨"expr_arith2", ["minus_op", "found_expr_duo_op", "expr_arith"], .skip⟩,
    ⟨"expr_arith2", ["empty"], .skip⟩,
    ⟨"plus_op", ["MORE", "GOOSE"], .give "+"⟩,
    ⟨"minus_op", ["LESS", "GOOSE"], .give "-"⟩,
    ⟨"expr_factor", ["expr_mono", "found_expr_factor", "expr_factor2"], .skip⟩,
    ⟨"found_expr_factor", ["empty"], .operation ["*", "/", "%", "."]⟩,
    ⟨"expr_factor2", ["mul_op", "found_expr_duo_op", "expr_factor"], .skip⟩,
    ⟨"expr_factor2", ["div_op", "found_expr_duo_op", "expr_factor"], .skip⟩,
    ⟨"expr_factor2", ["mod_op", "found_expr_duo_op", "expr_factor"], .skip⟩,
    ⟨"expr_factor2", ["dot_op", "found_expr_duo_op", "expr_factor"], .skip⟩,
    ⟨"expr_factor2", ["empty"], .skip⟩,
    ⟨"mul_op", ["GOOSETIPLY"], .give "*"⟩,
    ⟨"div_op", ["GOOSIVIDE"], .give "/"⟩,
    ⟨"mod_op", ["LEFTOVERS"], .give "%"⟩,
    ⟨"dot_op", ["DOOT"], .give "."⟩,
    ⟨"found_expr_duo_op", ["empty"], .pushOperator⟩,
    ⟨"expr_mono", ["expr_atom", "expr_mono_op"], .skip⟩,
    ⟨"expr_mono_op", ["det_op", "found_expr_mono_op", "expr_mono_op"], .skip⟩,
    ⟨"expr_mono_op", ["trans_op", "found_expr_mono_op", "expr_mono_op"], .skip⟩,
    ⟨"expr_mono_op", ["inv_op", "found_expr_mono_op", "expr_mono_op"], .skip⟩,
    ⟨"expr_mono_op", ["empty"], .skip⟩,
    ⟨"det_op", ["GOOSECOIN"], .give "$"⟩,
    ⟨"trans_op", ["SURPRISE"], .give "!"⟩,
    ⟨"inv_op", ["WH"], .give "?"⟩,
    ⟨"found_expr_mono_op", ["empty"], .matrixOperation⟩,
    ⟨"expr_atom", ["expr_group"], .skip⟩,
    ⟨"expr_atom", ["expr_call_func"], .skip⟩,
    ⟨"expr_atom", ["expr_var"], .skip⟩,
    ⟨"expr_group", ["OPEN", "GATE", "found_expr_group", "found_expr_duo_op", "expr", "CLOSE",
      "GATE"], .closeGroup⟩,
    ⟨"found_expr_group", ["empty"], .give "("⟩,
    ⟨"expr_var", ["expr_var_name", "expr_var_dims"], .skip⟩,
    ⟨"expr_var_name", ["ID"], .pushVariable⟩,
    ⟨"expr_var_dims", ["empty"], .skip⟩,
    ⟨"expr_var_dims", ["found_expr_var_dims", "expr_var_dim", "expr_var_dim"], .endAccess⟩,
    ⟨"expr_var_dims", ["found_expr_var_dims", "expr_var_dim"], .endAccess⟩,
    ⟨"found_expr_var_dims", ["empty"], .beginAccess⟩,
    ⟨"expr_var_dim", ["OPEN", "BOX", "expr_var_open_dim", "expr", "CLOSE", "BOX"], .closeIndex⟩,
    ⟨"expr_var_open_dim", ["empty"], .openIndex⟩,
    ⟨"expr_var", ["CTE_INT"], .constant⟩,
    ⟨"expr_var", ["CTE_FLOAT"], .constant⟩,
    ⟨"expr_var", ["CTE_BOOL"], .constant⟩,
    ⟨"expr_var", ["CTE_CHAR"], .constant⟩,
    ⟨"expr_call_func", ["HOOONK", "ID", "found_call_func_name", "OPEN", "GATE",
      "call_func_params", "CLOSE", "GATE", "found_call_func_end"], .callResult⟩,
    ⟨"call_func", ["HOOONK", "ID", "found_call_func_name", "OPEN", "GATE", "call_func_params",
      "CLOSE", "GATE", "found_call_func_end", "HONK"], .callStatement⟩,
    ⟨"found_call_func_name", ["empty"], .beginCall⟩,
    ⟨"call_func_params", ["call_func_param"], .skip⟩,
    ⟨"call_func_params", ["empty"], .skip⟩,
    ⟨"call_func_param", ["expr", "func_single_step", "MOAR", "call_func_param"], .skip⟩,
    ⟨"call_func_param", ["expr", "func_single_step"], .skip⟩,
    ⟨"func_single_step", ["empty"], .argument⟩,
    ⟨"found_call_func_end", ["empty"], .endCall⟩,
    ⟨"empty", [], .skip⟩]

/-- Texts in the order of their characters. -/
def sorted (names : List String) : List String := names.mergeSort fun a b => decide (a ≤ b)

def grammar (d : Dialect) : Grammar :=
  let g := d.rules.zipIdx.foldl (fun g (r, n) =>
    (g.addProduction r.name r.symbols none "" (n + 1)).1) (Grammar.ofTerminals (sorted d.kinds))
  match g.setStart none with
  | .ok g => g
  | .error _ => g

def coded (d : Dialect) : Option Lalr.Rules := Lalr.Rules.ofGrammar? d.grammar

/-- The step of a rule by its number; the start rule has none. -/
def stepOf (d : Dialect) (rule : Nat) : Step :=
  match rule with
  | 0 => .skip
  | n + 1 => ((d.rules[n]?).map (·.step)).getD .skip

end Dialect

end QuadLang
