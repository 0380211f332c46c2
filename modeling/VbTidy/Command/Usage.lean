import VbTidy.Text.Basic

/-
The texts that tell how the program is called.
-/
namespace VbTidy

/-- Lines with a line feed after each. -/
def unlines (lines : List String) : Text :=
  lines.flatMap fun l => l.toList ++ ['\n']

/-- The version of the program. -/
def programVersion : Text :=
  "0.1.0".toList

/-- The name and version of the program. -/
def versionText : Text :=
  "vbsfmt ".toList ++ programVersion ++ ['\n']

/-- How the program is called. -/
def programUsage : Text :=
  unlines
    ["usage: vbsfmt [-h] [--version] CMD ..."]

/-- What the program does and which commands it has. -/
def programDetails : Text :=
  unlines
    ["",
     "VBScript / ASP 源码格式化工具（缩进、运算符空格、关键字大小写、对齐；字符串/注释/HTML 原样保留）",
     "",
     "通用选项:",
     "  -h, --help  show this help message and exit",
     "  --version   show program's version number and exit",
     "",
     "子命令:",
     "  可用子命令",
     "",
     "  CMD",
     "    format    格式化 .vbs/.asp/.inc 文件，或作为标准输入过滤器"]

/-- How the formatting command is called. -/
def formatUsage : Text :=
  unlines
    ["usage: vbsfmt format [-h] [-i] [--no-recursive] [--check] [--dry-run]",
     "                     [--fail-fast] [--exclude EXCLUDE] [--no-backup]",
     "                     [--encoding ENCODING] [-q | -v] [--indent \x7bspaces,tabs\x7d]",
     "                     [-s INDENT_SIZE] [-k \x7bproper,upper,lower,unchanged\x7d] [-d]",
     "                     [PATH ...]"]

/-- What the formatting command does and which options it has. -/
def formatDetails : Text :=
  unlines
    ["",
     "批量格式化文件或目录；默认原地写回并先备份，支持 --check 只检查，-i 读标准输入写标准输出。",
     "",
     "位置参数:",
     "  PATH                  要格式化的文件或目录",
     "",
     "通用选项:",
     "  -h, --help            show this help message and exit",
     "",
     "处理控制:",
     "  -i, --stdin           过滤模式：从标准输入读取，结果写到标准输出",
     "  --no-recursive        目录仅处理当前层，不递归子目录",
     "  --check               只检查，不写回；若有文件需要格式化则退出码为 1",
     "  --dry-run             等同于 --check",
     "  --fail-fast           遇到第一个失败后立即退出",
     "  --exclude EXCLUDE     排除 glob 规则（可逗号分隔，也可重复传入）",
     "",
     "输入输出:",
     "  --no-backup           关闭写回前备份（默认开启备份）",
     "  --encoding ENCODING   读取/写入编码（默认 utf-8）",
     "",
     "输出控制:",
     "  -q, --quiet           简洁输出：仅显示失败项和汇总",
     "  -v, --verbose         详细输出：显示统计与各处理步骤",
     "",
     "格式化参数:",
     "  --indent \x7bspaces,tabs\x7d",
     "                        缩进方式",
     "  -s INDENT_SIZE, --indent-size INDENT_SIZE",
     "                        每层缩进的空格数",
     "  -k \x7bproper,upper,lower,unchanged\x7d, --keyword-case \x7bproper,upper,lower,unchanged\x7d",
     "                        关键字大小写（unchanged 表示不修改）",
     "  -d, --no-split-dim    不拆分 Dim a, b 语句",
     "",
     "示例:",
     "  vbsfmt format script.vbs",
     "  vbsfmt format ./site --check",
     "  vbsfmt format ./site --exclude \"**/vendor/**\" -k upper",
     "  vbsfmt format -i --indent tabs < in.vbs > out.vbs"]

end VbTidy
