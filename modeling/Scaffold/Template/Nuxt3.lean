import Scaffold.Template.File

/-! # The files of the server-rendered application

Every file of the template with its lines.
-/

namespace Scaffold.Template

/-- The files of the template. -/
def nuxt3Files : List File := [
  ⟨"README.md", [
    "# nuxt3-template",
    "",
    "Nuxt 3 starter with UnoCSS, VueUse and Nuxt Image.",
    "",
    "## Setup",
    "",
    "\x60\x60\x60sh",
    "npm install",
    "npm run dev",
    "\x60\x60\x60",
    "",
    "## Production",
    "",
    "\x60\x60\x60sh",
    "npm run build",
    "pm2 start ecosystem.config.cjs --env production",
    "\x60\x60\x60"]⟩,
  ⟨"ecosystem.config.cjs", [
    "module.exports = \x7b",
    "  apps: [\x7b",
    "    name: 'nuxt3-template',",
    "    script: '.output/server/index.mjs',",
    "",
    "    env: \x7b",
    "      NODE_ENV: 'production',",
    "      NITRO_PORT: 7788,",
    "    \x7d,",
    "    // Secrets are loaded from .env.production",
    "    // pm2 start ecosystem.config.cjs --env production",
    "",
    "    instances: 1,",
    "    autorestart: true,",
    "    watch: false,",
    "    max_memory_restart: '4G',",
    "",
    "    error_file: 'logs/err.log',",
    "    out_file: 'logs/out.log',",
    "    log_type: 'json',",
    "    merge_logs: true,",
    "    log_date_format: 'YYYY-MM-DD HH:mm:ss',",
    "    log_file: 'logs/combined.log',",
    "",
    "    exec_mode: 'cluster',",
    "    increment_var: 'PORT',",
    "    restart_delay: 4000,",
    "    min_uptime: '30s'",
    "  \x7d]",
    "\x7d"]⟩,
  ⟨"nuxt.config.ts", [
    "// https://nuxt.com/docs/api/configuration/nuxt-config",
    "import AutoImport from 'unplugin-auto-import/vite'",
    "import Components from 'unplugin-vue-components/vite'",
    "",
    "export default defineNuxtConfig(\x7b",
    "  compatibilityDate: '2024-11-01',",
    "",
    "  /* Type-check during build */",
    "  typescript: \x7b",
    "    typeCheck: true",
    "  \x7d,",
    "",
    "  imports: \x7b",
    "    dirs: [",
    "      // top-level modules",
    "      'composables',",
    "      // one level of nested modules with an index file",
    "      'composables/*/index.\x7bts,js,mjs,mts\x7d',",
    "      // everything below composables",
    "      'composables/**'",
    "    ]",
    "  \x7d,",
    "",
    "  nitro: \x7b",
    "    /* API proxy */",
    "    routeRules: \x7b",
    "      '/api/proxy/**': \x7b",
    "        proxy: 'http://localhost:7790/api/**'",
    "      \x7d",
    "    \x7d",
    "  \x7d,",
    "",
    "  runtimeConfig: \x7b",
    "    /** Server-only secret */",
    "    apiSecret: '',",
    "",
    "    /** Keys exposed to the client */",
    "    public: \x7b",
    "      apiBaseUrl: ''",
    "    \x7d",
    "  \x7d,",
    "",
    "  modules: ['@unocss/nuxt', '@nuxt/image', '@vueuse/nuxt'],",
    "",
    "  srcDir: 'src/',",
    "",
    "  vite: \x7b",
    "    ssr: \x7b\x7d,",
    "    css: \x7b\x7d,",
    "    plugins: [",
    "      AutoImport(\x7b",
    "        imports: []",
    "      \x7d),",
    "      Components(\x7b",
    "        resolvers: []",
    "      \x7d)",
    "    ]",
    "  \x7d,",
    "",
    "  devtools: \x7b enabled: true \x7d",
    "\x7d)"]⟩,
  ⟨"package.json", [
    "\x7b",
    "  \"name\": \"nuxt3-template\",",
    "  \"private\": true,",
    "  \"type\": \"module\",",
    "  \"scripts\": \x7b",
    "    \"build\": \"nuxt build\",",
    "    \"dev\": \"nuxt dev\",",
    "    \"generate\": \"nuxt generate\",",
    "    \"preview\": \"nuxt preview\",",
    "    \"postinstall\": \"nuxt prepare\",",
    "    \"type-check\": \"nuxi typecheck\"",
    "  \x7d,",
    "  \"dependencies\": \x7b",
    "    \"@nuxt/image\": \"^1.8.1\",",
    "    \"nuxt\": \"^3.14.1592\",",
    "    \"vue\": \"latest\",",
    "    \"vue-router\": \"latest\"",
    "  \x7d,",
    "  \"devDependencies\": \x7b",
    "    \"@unocss/nuxt\": \"^0.64.1\",",
    "    \"@vueuse/core\": \"^11.3.0\",",
    "    \"@vueuse/nuxt\": \"^11.3.0\",",
    "    \"sass\": \"^1.81.0\",",
    "    \"typescript\": \"^5.6.3\",",
    "    \"unocss\": \"^0.64.1\",",
    "    \"unplugin-auto-import\": \"^0.18.5\",",
    "    \"unplugin-vue-components\": \"^0.27.4\",",
    "    \"vue-tsc\": \"^2.1.10\"",
    "  \x7d",
    "\x7d"]⟩,
  ⟨"prettier.config.cjs", [
    "/**",
    " * @type \x7bimport('prettier').Config\x7d",
    " */",
    "module.exports = \x7b",
    "  printWidth: 120,",
    "  tabWidth: 2,",
    "  useTabs: false,",
    "  semi: false,",
    "  singleQuote: true,",
    "  quoteProps: 'as-needed',",
    "  trailingComma: 'none',",
    "  bracketSpacing: true,",
    "  bracketSameLine: false,",
    "  arrowParens: 'avoid',",
    "  endOfLine: 'lf',",
    "  htmlWhitespaceSensitivity: 'ignore',",
    "  vueIndentScriptAndStyle: true,",
    "  singleAttributePerLine: false,",
    "  plugins: []",
    "\x7d"]⟩,
  ⟨"src/api/example/index.ts", [
    "import type \x7b exampleReq, exampleRes \x7d from '~/api/example/type'",
    "",
    "export async function getExample(params: exampleReq) \x7b",
    "  return await fetchRequest.get<exampleRes>('/example', params)",
    "\x7d"]⟩,
  ⟨"src/api/example/type.ts", [
    "export interface exampleReq \x7b",
    "  id: number",
    "\x7d",
    "",
    "export interface exampleRes \x7b",
    "  id: number",
    "  title: string",
    "\x7d"]⟩,
  ⟨"src/app.vue", [
    "<template>",
    "  <div class=\"flex-col-center min-h-screen\">",
    "    <NuxtPage />",
    "  </div>",
    "</template>"]⟩,
  ⟨"src/assets/styles/main.scss", [
    "$text-color: #213547;",
    "",
    "body \x7b",
    "  margin: 0;",
    "  color: $text-color;",
    "\x7d"]⟩,
  ⟨"src/composables/fetchRequest.ts", [
    "type Params = Record<string, unknown>",
    "",
    "async function request<T>(method: 'GET' | 'POST', url: string, params?: Params): Promise<T> \x7b",
    "  const config = useRuntimeConfig()",
    "  const options = method === 'GET' ? \x7b query: params \x7d : \x7b body: params \x7d",
    "  return await $fetch<T>(url, \x7b",
    "    baseURL: config.public.apiBaseUrl as string,",
    "    method,",
    "    ...options",
    "  \x7d)",
    "\x7d",
    "",
    "export const fetchRequest = \x7b",
    "  get: <T>(url: string, params?: Params) => request<T>('GET', url, params),",
    "  post: <T>(url: string, params?: Params) => request<T>('POST', url, params)",
    "\x7d"]⟩,
  ⟨"src/pages/index.vue", [
    "<script setup lang=\"ts\">",
    "const \x7b data \x7d = await useAsyncData('example', () => getExample(\x7b id: 1 \x7d))",
    "</script>",
    "",
    "<template>",
    "  <section class=\"p-8\">",
    "    <h1 class=\"text-2xl font-bold\">Nuxt 3</h1>",
    "    <pre>\x7b\x7b data \x7d\x7d</pre>",
    "  </section>",
    "</template>"]⟩,
  ⟨"tsconfig.json", [
    "\x7b",
    "  // https://nuxt.com/docs/guide/concepts/typescript",
    "  \"extends\": \"./.nuxt/tsconfig.json\"",
    "\x7d"]⟩,
  ⟨"uno.config.ts", [
    "import \x7b defineConfig, presetAttributify, presetIcons, presetUno, transformerDirectives \x7d from 'unocss'",
    "",
    "export default defineConfig(\x7b",
    "  shortcuts: [",
    "    ['flex-center', 'flex items-center justify-center'],",
    "    ['flex-col-center', 'flex flex-col items-center justify-center']",
    "  ],",
    "  presets: [presetUno(), presetAttributify(), presetIcons()],",
    "  transformers: [transformerDirectives()]",
    "\x7d)"]⟩]

end Scaffold.Template
